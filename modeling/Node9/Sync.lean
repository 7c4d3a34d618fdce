import Node9.Lib.Steps

/-!
# Waiting in the kernel

Model of svcs/lock.c and of the sleep and wakeup part of svcs/proc.c, for any number of kernel processes.
Spin locks, `osblock` and `osready` are given: a spin lock has at most one holder, and a process has a
counting semaphore. Each process is somewhere in one of the functions (`Pc`), or between two calls, and a
step takes one process to its next point: a spin lock is taken, the fields behind it are read and written,
the spin lock is given back. The calls come in pairs: a process unlocks what it has locked (`has`).

`came` and `gone` are not in the source: they record who was put into the queue of a `QLock` and to whom
`qunlock` has passed it.
-/

namespace Node9.Sync
open Function (update)

/-- The queue locks: those that are used alone, and the `x` and `k` of the read/write locks. -/
inductive QId
  | q (i : Nat)
  | x (l : Nat)
  | k (l : Nat)
  deriving DecidableEq

inductive Spin (τ : Type)
  | use (q : QId)
  | l (l : Nat)
  | r (r : Nat)
  | rlock (p : τ)
  | sysio (p : τ)
  deriving DecidableEq

structure QLock (τ : Type) where
  locked : Bool
  head : Option τ
  tail : Option τ

/-- What a process has locked between its calls. -/
inductive Hold
  | q (i : Nat)
  | r (l : Nat)
  | w (l : Nat)
  deriving DecidableEq

/-! ### Where a process is -/

/-- Who has called `qlock`, -/
inductive LkFrom
  | user (i : Nat)
  | rlock (l : Nat)
  | wlockX (l : Nat)
  | wlockK (l : Nat)

/-- `canqlock` -/
inductive CanFrom
  | user (i : Nat)
  | canrlock (l : Nat)
  | rlockK (l : Nat)

/-- and `qunlock`. -/
inductive UnFrom
  | user (i : Nat)
  | rlockX (l : Nat)
  | runlock (l : Nat)
  | wunlockK (l : Nat)
  | wunlockX (l : Nat)

def LkFrom.lock : LkFrom → QId
  | user i => .q i
  | rlock l => .x l
  | wlockX l => .x l
  | wlockK l => .k l

def CanFrom.lock : CanFrom → QId
  | user i => .q i
  | canrlock l => .x l
  | rlockK l => .k l

def UnFrom.lock : UnFrom → QId
  | user i => .q i
  | rlockX l => .x l
  | runlock l => .k l
  | wunlockK l => .k l
  | wunlockX l => .x l

inductive Lk
  | lock | test | got | queued | block

inductive Can
  | lock | test | no | got

inductive Un (τ : Type)
  | lock | pop | freed
  | popped (w : τ)
  | ready (w : τ)

/-- `rlock`, `canrlock` and `runlock` between their calls. -/
inductive Rw
  | rlockL | rlockInc | rlockUn | runlockL | runlockDec | runlockUn

inductive Sl
  | lockP | lockR | test | stay | panic | recorded | note | unlockP | block | relock | clear | check | raise | done

inductive Wk (τ : Type)
  | lock | take
  | ready (w : τ)
  | unlock

inductive Sw
  | lockP | kill
  | lockR (r : Nat)
  | test (r : Nat)
  | ready (r : Nat)
  | unlockR (r : Nat)
  | unlockP | unlockH | lockS | host | unlockS

inductive Nk
  | lock | clear | unlock

inductive Pc (τ : Type)
  | idle
  | lk (c : LkFrom) (a : Lk)
  | can (c : CanFrom) (a : Can)
  | un (c : UnFrom) (a : Un τ)
  | rw (l : Nat) (a : Rw)
  | sleep (r : Nat) (a : Sl)
  | wakeup (r : Nat) (a : Wk τ)
  | swiproc (t : τ) (interp : Bool) (a : Sw)
  | notkilled (a : Nk)

structure Proc (τ : Type) where
  pc : Pc τ
  has : List Hold
  sem : Nat

structure State (τ : Type) where
  proc : τ → Proc τ
  qnext : τ → Option τ
  killed : τ → Bool
  swipend : τ → Bool
  syscall : τ → Bool
  intwait : τ → Bool
  /-- `p->r` -/
  r : τ → Option Nat
  qlock : QId → QLock τ
  readers : Nat → Int
  /-- the `p` of a `Rendez` -/
  rendez : Nat → Option τ
  spin : Spin τ → Option τ
  came : QId → List τ
  gone : QId → List τ

def start (τ : Type) : State τ where
  proc _ := ⟨.idle, [], 0⟩
  qnext _ := none
  killed _ := false
  swipend _ := false
  syscall _ := false
  intwait _ := false
  r _ := none
  qlock _ := ⟨false, none, none⟩
  readers _ := 0
  rendez _ := none
  spin _ := none
  came _ := []
  gone _ := []

variable {τ : Type} [DecidableEq τ]

namespace State

def setp (s : State τ) (p : τ) (P : Proc τ) : State τ := { s with proc := update s.proc p P }

def goto (s : State τ) (p : τ) (pc : Pc τ) : State τ := s.setp p { s.proc p with pc := pc }

def lock (s : State τ) (p : τ) (l : Spin τ) : Option (State τ) :=
  if (s.spin l).isNone then some { s with spin := update s.spin l (some p) } else none

def unlock (s : State τ) (l : Spin τ) : State τ := { s with spin := update s.spin l none }

def setq (s : State τ) (q : QId) (v : QLock τ) : State τ := { s with qlock := update s.qlock q v }

def osready (s : State τ) (w : τ) : State τ := s.setp w { s.proc w with sem := (s.proc w).sem + 1 }

def osblock (s : State τ) (p : τ) : Option (State τ) :=
  if 0 < (s.proc p).sem then some (s.setp p { s.proc p with sem := (s.proc p).sem - 1 }) else none

/-- A function returns, to its caller or to the process. -/
def ret (s : State τ) (p : τ) (v : Pc τ × List Hold) : State τ :=
  s.setp p { s.proc p with pc := v.1, has := v.2 ++ (s.proc p).has }

end State

def LkFrom.ret : LkFrom → Pc τ × List Hold
  | user i => (.idle, [.q i])
  | rlock l => (.rw l .rlockL, [])
  | wlockX l => (.lk (.wlockK l) .lock, [])
  | wlockK l => (.idle, [.w l])

def CanFrom.ret : CanFrom → Bool → Pc τ × List Hold
  | user i, ok => (.idle, if ok then [.q i] else [])
  | canrlock l, ok => (if ok then .rw l .rlockL else .idle, [])
  -- the result is not looked at
  | rlockK l, _ => (.rw l .rlockUn, [])

def UnFrom.ret : UnFrom → Pc τ × List Hold
  | user _ => (.idle, [])
  | rlockX l => (.idle, [.r l])
  | runlock l => (.rw l .runlockUn, [])
  | wunlockK l => (.un (.wunlockX l) .lock, [])
  | wunlockX _ => (.idle, [])

/-- `p = q->tail; if(p == 0) q->head = up; else p->qnext = up; q->tail = up; up->qnext = 0` -/
def enqueue (s : State τ) (q : QId) (up : τ) : State τ :=
  let v := s.qlock q
  { s with
    qlock := update s.qlock q { v with head := if v.tail.isNone then some up else v.head, tail := some up }
    qnext := update (v.tail.elim s.qnext fun p => update s.qnext p (some up)) up none
    came := update s.came q (s.came q ++ [up]) }

def qlock (s : State τ) (up : τ) (c : LkFrom) : Lk → Option (State τ)
  | .lock => (s.lock up (.use c.lock)).map (·.goto up (.lk c .test))
  | .test =>
    if !(s.qlock c.lock).locked then
      some ((s.setq c.lock { s.qlock c.lock with locked := true }).goto up (.lk c .got))
    else some ((enqueue s c.lock up).goto up (.lk c .queued))
  | .got => some ((s.unlock (.use c.lock)).ret up c.ret)
  | .queued => some ((s.unlock (.use c.lock)).goto up (.lk c .block))
  | .block => (s.osblock up).map (·.ret up c.ret)

def canqlock (s : State τ) (up : τ) (c : CanFrom) : Can → State τ
  | .lock => ((s.lock up (.use c.lock)).map (·.goto up (.can c .test))).getD (s.ret up (c.ret false))
  | .test =>
    if (s.qlock c.lock).locked then s.goto up (.can c .no)
    else (s.setq c.lock { s.qlock c.lock with locked := true }).goto up (.can c .got)
  | .no => (s.unlock (.use c.lock)).ret up (c.ret false)
  | .got => (s.unlock (.use c.lock)).ret up (c.ret true)

/-- `q->head = p->qnext; if(q->head == 0) q->tail = 0` -/
def dequeue (s : State τ) (q : QId) (p : τ) : State τ :=
  let v := s.qlock q
  { s.setq q { v with head := s.qnext p, tail := if (s.qnext p).isNone then none else v.tail } with
    gone := update s.gone q (s.gone q ++ [p]) }

def qunlock (s : State τ) (up : τ) (c : UnFrom) : Un τ → Option (State τ)
  | .lock => (s.lock up (.use c.lock)).map (·.goto up (.un c .pop))
  | .pop =>
    match (s.qlock c.lock).head with
    | some p => some ((dequeue s c.lock p).goto up (.un c (.popped p)))
    | none => some ((s.setq c.lock { s.qlock c.lock with locked := false }).goto up (.un c .freed))
  | .popped p => some ((s.unlock (.use c.lock)).goto up (.un c (.ready p)))
  | .ready p => some ((s.osready p).ret up c.ret)
  | .freed => some ((s.unlock (.use c.lock)).ret up c.ret)

def setReaders (s : State τ) (l : Nat) (n : Int) : State τ := { s with readers := update s.readers l n }

/-- What `rlock` and `runlock` do under the spin lock `l`. -/
def rw (s : State τ) (up : τ) (l : Nat) : Rw → Option (State τ)
  | .rlockL => (s.lock up (.l l)).map (·.goto up (.rw l .rlockInc))
  | .rlockInc => some ((setReaders s l (s.readers l + 1)).goto up (.can (.rlockK l) .lock))
  | .rlockUn => some ((s.unlock (.l l)).goto up (.un (.rlockX l) .lock))
  | .runlockL => (s.lock up (.l l)).map (·.goto up (.rw l .runlockDec))
  | .runlockDec =>
    some ((setReaders s l (s.readers l - 1)).goto up
      (if s.readers l - 1 = 0 then .un (.runlock l) .lock else .rw l .runlockUn))
  | .runlockUn => some ((s.unlock (.l l)).goto up .idle)

/-- `f` is what `f(arg)` returns. -/
def sleep (s : State τ) (p : τ) (r : Nat) (f : Bool) : Sl → Option (State τ)
  | .lockP => (s.lock p (.rlock p)).map (·.goto p (.sleep r .lockR))
  | .lockR => (s.lock p (.r r)).map (·.goto p (.sleep r .test))
  | .test =>
    if s.killed p || f then some (s.goto p (.sleep r .stay))
    else
      match s.rendez r with
      | some _ => some (s.goto p (.sleep r .panic))
      | none => some ({ s with rendez := update s.rendez r (some p) }.goto p (.sleep r .recorded))
  | .stay => some ((s.unlock (.r r)).goto p (.sleep r .check))
  -- the kernel ends here
  | .panic => none
  | .recorded => some ((s.unlock (.r r)).goto p (.sleep r .note))
  | .note =>
    some ({ s with
      swipend := update s.swipend p false
      r := update s.r p (some r) }.goto p (.sleep r .unlockP))
  | .unlockP => some ((s.unlock (.rlock p)).goto p (.sleep r .block))
  | .block => (s.osblock p).map (·.goto p (.sleep r .relock))
  | .relock => (s.lock p (.rlock p)).map (·.goto p (.sleep r .clear))
  | .clear => some ({ s with r := update s.r p none }.goto p (.sleep r .check))
  | .check =>
    if s.killed p || s.swipend p then
      some ({ s with
        killed := update s.killed p false
        swipend := update s.swipend p false }.goto p (.sleep r .raise))
    else some (s.goto p (.sleep r .done))
  -- error(Eintr)
  | .raise => some ((s.unlock (.rlock p)).goto p .idle)
  | .done => some ((s.unlock (.rlock p)).goto p .idle)

def wakeup (s : State τ) (up : τ) (r : Nat) : Wk τ → Option (State τ)
  | .lock => (s.lock up (.r r)).map (·.goto up (.wakeup r .take))
  | .take =>
    match s.rendez r with
    | some p => some ({ s with rendez := update s.rendez r none }.goto up (.wakeup r (.ready p)))
    | none => some (s.goto up (.wakeup r .unlock))
  | .ready p => some ((s.osready p).goto up (.wakeup r .unlock))
  | .unlock => some ((s.unlock (.r r)).goto up .idle)

def swiproc (s : State τ) (up p : τ) (interp : Bool) : Sw → Option (State τ)
  | .lockP => (s.lock up (.rlock p)).map (·.goto up (.swiproc p interp .kill))
  | .kill =>
    some ({ s with killed := if interp then s.killed else update s.killed p true }.goto up
      (.swiproc p interp (((s.r p).map Sw.lockR).getD .unlockH)))
  | .lockR r => (s.lock up (.r r)).map (·.goto up (.swiproc p interp (.test r)))
  | .test r =>
    if s.rendez r = some p then
      some ({ s with
        swipend := update s.swipend p true
        rendez := update s.rendez r none }.goto up (.swiproc p interp (.ready r)))
    else some (s.goto up (.swiproc p interp (.unlockR r)))
  | .ready r => some ((s.osready p).goto up (.swiproc p interp (.unlockR r)))
  | .unlockR r => some ((s.unlock (.r r)).goto up (.swiproc p interp .unlockP))
  | .unlockP => some ((s.unlock (.rlock p)).goto up .idle)
  | .unlockH => some ((s.unlock (.rlock p)).goto up (.swiproc p interp .lockS))
  | .lockS => (s.lock up (.sysio p)).map (·.goto up (.swiproc p interp .host))
  | .host =>
    -- oshostintr does nothing
    if s.syscall p && !s.intwait p then
      some ({ s with
        swipend := update s.swipend p true
        intwait := update s.intwait p true }.goto up (.swiproc p interp .unlockS))
    else some (s.goto up (.swiproc p interp .unlockS))
  | .unlockS => some ((s.unlock (.sysio p)).goto up .idle)

def notkilled (s : State τ) (up : τ) : Nk → Option (State τ)
  | .lock => (s.lock up (.rlock up)).map (·.goto up (.notkilled .clear))
  | .clear => some ({ s with killed := update s.killed up false }.goto up (.notkilled .unlock))
  | .unlock => some ((s.unlock (.rlock up)).goto up .idle)

inductive Call (τ : Type)
  | qlock (i : Nat)
  | canqlock (i : Nat)
  | qunlock (i : Nat)
  | rlock (l : Nat)
  | canrlock (l : Nat)
  | runlock (l : Nat)
  | wlock (l : Nat)
  | wunlock (l : Nat)
  | sleep (r : Nat)
  | wakeup (r : Nat)
  | swiproc (t : τ) (interp : Bool)
  | notkilled

def Call.enter : Call τ → Pc τ
  | qlock i => .lk (.user i) .lock
  | canqlock i => .can (.user i) .lock
  | qunlock i => .un (.user i) .lock
  | rlock l => .lk (.rlock l) .lock
  | canrlock l => .can (.canrlock l) .lock
  | runlock l => .rw l .runlockL
  | wlock l => .lk (.wlockX l) .lock
  | wunlock l => .un (.wunlockK l) .lock
  | sleep r => .sleep r .lockP
  | wakeup r => .wakeup r .lock
  | swiproc t interp => .swiproc t interp .lockP
  | notkilled => .notkilled .lock

def Call.undoes : Call τ → Option Hold
  | qunlock i => some (.q i)
  | runlock l => some (.r l)
  | wunlock l => some (.w l)
  | _ => none

inductive Act (τ : Type)
  | call (p : τ) (c : Call τ)
  /-- `p` goes on; `f` is what the condition of a `Sleep` says -/
  | go (p : τ) (f : Bool)
  /-- `osenter` and `osleave` -/
  | syscall (p : τ) (v : Bool)

def call (s : State τ) (p : τ) (c : Call τ) : Option (State τ) :=
  match c.undoes with
  | none => some (s.goto p c.enter)
  | some h =>
    if (s.proc p).has.contains h then
      some (s.setp p { s.proc p with pc := c.enter, has := (s.proc p).has.erase h })
    else none

def go (s : State τ) (p : τ) (f : Bool) : Option (State τ) :=
  match (s.proc p).pc with
  | .idle => none
  | .lk c a => qlock s p c a
  | .can c a => some (canqlock s p c a)
  | .un c a => qunlock s p c a
  | .rw l a => rw s p l a
  | .sleep r a => sleep s p r f a
  | .wakeup r a => wakeup s p r a
  | .swiproc t interp a => swiproc s p t interp a
  | .notkilled a => notkilled s p a

def step (s : State τ) : Act τ → Option (State τ)
  | .call p c =>
    match (s.proc p).pc with
    | .idle => call s p c
    | _ => none
  | .go p f => go s p f
  | .syscall p v =>
    match (s.proc p).pc with
    | .idle => some { s with syscall := update s.syscall p v }
    | _ => none

end Node9.Sync
