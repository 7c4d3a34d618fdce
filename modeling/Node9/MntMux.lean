import Node9.MntRpc
import Node9.Lib.Steps

/-!
# Many requests on one connection (`mountio`, `mountmux`, `mntflushalloc`, `mntflushfree` in `devmnt.c`)

Any number of processes have requests on one `Mnt`. The steps are what a process does under a lock, or up to
where it waits. A process that sleeps may go on as soon as `rpcattn` holds, whether it was woken up or not. An
interrupt can meet it while it sleeps, writes or reads. Requests for other mounts take part as requests that
their process gives back without a call of `mountio`.

The server has a list of what it was asked, in that order, and answers any of it. When it answers a `Tflush`
it forgets the request with that tag, and the earlier flushes of it.

`held` is the reply that the reader has got and not yet handed on. `sent` and `received` are what was ever sent,
and answered, and `failed` says that a read or a write has failed. They are not in the code.
-/

namespace Node9.MntMux
open Linked Steps Function

abbrev Pid := Nat

inductive Pc
  | idle
  /-- the caller has its request from `mntralloc` -/
  | got (r : Rpc)
  /-- `mountio`, after its `while(waserror())` -/
  | start (r : Rpc)
  | write (r : Rpc)
  /-- the loop that gates readers -/
  | gate (r : Rpc)
  | sleep (r : Rpc)
  /-- `while(r->done == 0)`, as the reader -/
  | read (r : Rpc)
  | mux (r : Rpc)
  /-- `waserror` has returned 1 -/
  | caught (r : Rpc) (eintr : Bool)
  | flush (r : Rpc)
  /-- the loop of `mntflushfree` -/
  | flushfree (r : Rpc)
  | qrm (r : Rpc)
  | release (r : Rpc)
  /-- the caller again, with its reply or an error -/
  | back

structure St where
  a : Mntalloc
  rip : Option Pid
  pc : Pid → Pc
  /-- the request of the caller -/
  arg : Pid → Rpc
  c2s : List Msg
  pending : List Msg
  s2c : List Msg
  held : Option Msg
  sent : List Msg
  received : List Msg
  failed : Bool

inductive Write
  | ok
  | fail (sent : Bool)
  | eintr (sent : Bool)

inductive Act
  | alloc (p : Pid) (msize : Nat) (mem : Option Rpc) (buf : Bool)
  | call (p : Pid)
  | drop (p : Pid)
  | enqueue (p : Pid)
  | write (p : Pid) (w : Write)
  | gate (p : Pid)
  | wake (p : Pid)
  | interrupt (p : Pid)
  | recv (p : Pid)
  | readfail (p : Pid)
  | mountmux (p : Pid)
  | leave (p : Pid)
  | catch (p : Pid)
  | flushalloc (p : Pid) (mem : Option Rpc) (buf : Bool)
  | flushfree (p : Pid)
  | qrm (p : Pid)
  | release (p : Pid)
  | free (p : Pid)
  | accept
  | answer (k : Nat)

def St.goto (s : St) (p : Pid) (x : Pc) : St := { s with pc := update s.pc p x }

def St.setRpc (s : St) (r : Rpc) (q : Mntrpc) : St := { s with a := { s.a with rpc := update s.a.rpc r q } }

def St.setReply (s : St) (r : Rpc) (x : Reply) : St := s.setRpc r { s.a.rpc r with reply := x }

def St.send (s : St) (t : Msg) : St := { s with c2s := s.c2s ++ [t], sent := s.sent ++ [t] }

/-- `malloc` does not return what is allocated. -/
def isFresh (a : Mntalloc) (mem : Option Rpc) : Bool := mem.all fun new => !a.allocated new

/-- The oldtag of a flush of `t`. -/
def Msg.root (t : Msg) : Nat := t.oldtag.getD t.tag

/-- `fr` becomes a flush of `r`. -/
def mntflushalloc (a : Mntalloc) (r fr : Rpc) : Mntalloc :=
  let t := (a.rpc r).request
  let q := a.rpc fr
  let q := { q with
    request := { q.request with oldtag := some t.root, covers := t.ident :: t.covers }
    flushed := some r }
  { a with rpc := update a.rpc fr q }

def enqueue (a : Mntalloc) (r : Rpc) : Mntalloc :=
  { a with next := update (update a.next (.list r) (a.next .queue)) .queue (some r) }

def mountmux (s : St) (t : Msg) : St :=
  match unlinkFirst .list (fun q => (s.a.rpc q).request.tag == t.tag) (64 * 1024) .queue s.a.next with
  | (next, some q) =>
    { s with a := { s.a with next, rpc := update s.a.rpc q { s.a.rpc q with reply := .answer t, done := true } } }
  -- unexpected reply tag
  | (_, none) => s

def mntqrm (a : Mntalloc) (r : Rpc) : Mntalloc :=
  { a with
    next := (unlinkFirst .list (fun q => q == r) (64 * 1024) .queue a.next).1
    rpc := update a.rpc r { a.rpc r with done := true } }

/-- What is left of the requests before `t` when it is answered. -/
def unflushed (t : Msg) (ts : List Msg) : List Msg :=
  match t.oldtag with
  | none => ts
  | some o => ts.filter fun x => x.tag != o && x.oldtag != some o

def step (msize : Nat) (s : St) : Act → Option St
  | .alloc p msize mem buf =>
    match s.pc p with
    | .idle =>
      if isFresh s.a mem then
        match mntralloc s.a msize mem buf with
        | (a, some r) => some ({ s with a, arg := update s.arg p r }.goto p (.got r))
        | (a, none) => some { s with a }
      else none
    | _ => none
  | .call p =>
    match s.pc p with
    | .got r => some ((s.setReply r .none).goto p (.start r))
    | _ => none
  | .drop p =>
    match s.pc p with
    | .got _ => some (s.goto p .back)
    | _ => none
  | .enqueue p =>
    match s.pc p with
    | .start r => some ({ s with a := enqueue s.a r }.goto p (.write r))
    | _ => none
  | .write p w =>
    match s.pc p with
    | .write r =>
      let t := (s.a.rpc r).request
      match w with
      | .ok => some ((s.send t).goto p (.gate r))
      | .fail sent => some ({ (if sent then s.send t else s) with failed := true }.goto p (.caught r false))
      | .eintr sent => some ((if sent then s.send t else s).goto p (.caught r true))
    | _ => none
  | .gate p =>
    match s.pc p with
    | .gate r =>
      if s.rip = none then some ({ s with rip := some p }.goto p (.read r)) else some (s.goto p (.sleep r))
    | _ => none
  | .wake p =>
    match s.pc p with
    | .sleep r =>
      if (s.a.rpc r).done then some (s.goto p (.flushfree r))
      else if s.rip = none then some (s.goto p (.gate r))
      else none
    | _ => none
  | .interrupt p =>
    match s.pc p with
    | .sleep r => some (s.goto p (.caught r true))
    | .read r => if (s.a.rpc r).done then none else some ((s.setReply r .none).goto p (.caught r true))
    | _ => none
  | .recv p =>
    match s.pc p with
    | .read r =>
      if (s.a.rpc r).done then none
      else
        match s.s2c with
        | [] => none
        | t :: s2c => some ({ s.setReply r (.answer t) with s2c, held := some t }.goto p (.mux r))
    | _ => none
  | .readfail p =>
    match s.pc p with
    | .read r =>
      if (s.a.rpc r).done then none
      else some ({ s.setReply r .none with failed := true }.goto p (.caught r false))
    | _ => none
  | .mountmux p =>
    match s.pc p with
    | .mux r =>
      match (s.a.rpc r).reply with
      | .answer t => some ({ mountmux s t with held := none, received := s.received ++ [t] }.goto p (.read r))
      | _ => none
    | _ => none
  | .leave p =>
    match s.pc p with
    | .read r => if (s.a.rpc r).done then some ({ s with rip := none }.goto p (.flushfree r)) else none
    | _ => none
  | .catch p =>
    match s.pc p with
    | .caught r eintr =>
      let s := if s.rip = some p then { s with rip := none } else s
      some (s.goto p (if eintr then .flush r else .flushfree r))
    | _ => none
  | .flushalloc p mem buf =>
    match s.pc p with
    | .flush r =>
      if isFresh s.a mem then
        match mntralloc s.a msize mem buf with
        | (a, some fr) => some ({ s with a := mntflushalloc a r fr }.goto p (.start fr))
        -- the error goes to the caller, and `r` is still in the queue
        | (a, none) => some ({ s with a }.goto p .back)
      else none
    | _ => none
  | .flushfree p =>
    match s.pc p with
    | .flushfree r =>
      if (s.a.rpc r).done then some (s.goto p (.release r)) else some ((s.setReply r .Rflush).goto p (.qrm r))
    | _ => none
  | .qrm p =>
    match s.pc p with
    | .qrm r => some ({ s with a := mntqrm s.a r }.goto p (.release r))
    | _ => none
  | .release p =>
    match s.pc p with
    | .release r =>
      match (s.a.rpc r).flushed with
      | some fr => some ({ s with a := mntfree s.a r }.goto p (.flushfree fr))
      | none => some (s.goto p .back)
    | _ => none
  | .free p =>
    match s.pc p with
    | .back => some ({ s with a := mntfree s.a (s.arg p) }.goto p .idle)
    | _ => none
  | .accept =>
    match s.c2s with
    | [] => none
    | t :: c2s => some { s with c2s, pending := s.pending ++ [t] }
  | .answer k =>
    match s.pending[k]? with
    | some t =>
      some { s with pending := unflushed t (s.pending.take k) ++ s.pending.drop (k + 1), s2c := s.s2c ++ [t] }
    | none => none

def init : St where
  a :=
    { tagmask := fun i => if i = 0 then 1 else if i = NMASK - 1 then 0x80000000 else 0
      next := fun _ => none
      nrpcfree := 0
      rpc := fun _ => ⟨⟨0, 0, none, []⟩, .none, 0, false, none⟩
      allocated := fun _ => false
      fresh := 0 }
  rip := none
  pc := fun _ => .idle
  arg := fun _ => 0
  c2s := []
  pending := []
  s2c := []
  held := none
  sent := []
  received := []
  failed := false

/-! ### What should hold -/

/-- The reply to `i` was received, or that to a flush of it. -/
def Settled (s : St) (i : Nat) : Prop := ∃ t ∈ s.received, t.ident = i ∨ i ∈ t.covers

structure Safe (s : St) : Prop where
  /-- the tags of the requests -/
  range : ∀ r, s.a.allocated r = true → (s.a.rpc r).request.tag ≠ 0 ∧ (s.a.rpc r).request.tag ≠ NOTAG
  distinct : ∀ r r', s.a.allocated r = true → s.a.allocated r' = true →
    (s.a.rpc r).request.tag = (s.a.rpc r').request.tag → r = r'
  /-- and of what the server has not answered, or what it answered was not received -/
  outstanding : ∀ t ∈ s.s2c ++ s.pending ++ s.c2s, ∀ t' ∈ s.s2c ++ s.pending ++ s.c2s, t.tag = t'.tag → t = t'
  delivered : ∀ r, s.a.allocated r = true → (s.a.rpc r).done = true → ∀ t, (s.a.rpc r).reply = .answer t →
    t.tag = (s.a.rpc r).request.tag ∧ t = (s.a.rpc r).request
  reused : s.failed = false → ∀ t ∈ s.sent, ∀ r, s.a.allocated r = true → (s.a.rpc r).request.tag = t.tag →
    (s.a.rpc r).request.ident ≠ t.ident → Settled s t.ident

/-- There is memory, and a tag, for every flush, and no read or write fails. After that `mntflushfree` gives back tags
whose replies may still come. -/
def Flushable (msize : Nat) (s : St) : Act → Prop
  | .flushalloc _ mem buf => Enough s.a msize mem buf
  | .write _ (.fail _) | .readfail _ => False
  | _ => True

end Node9.MntMux
