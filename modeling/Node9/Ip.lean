import Node9.Lib.Steps

/-!
# Network conversations (`devip.c`)

The calls in progress go on one at a time, from one lock operation to the next: each constructor of `Call` says
between which two a call is. A lock that is held stops the calls that wait for it. What host calls and allocations
give is open (`Host`), the result of permission checks too.

An open conversation file is a channel; `chans` has those of `ctl` and `data`. A channel that a write is in is
not closed. Conversations are never freed.
-/

namespace Node9.Ip

/-- `S_UDP` and `S_TCP` -/
inductive Proto
  | udp
  | tcp
  deriving DecidableEq

/-- A conversation, by its index in a protocol. -/
abbrev Key := Proto × Nat

inductive State
  | idle
  | announcing
  | announced
  | connecting
  | connected
  | hungup
  deriving DecidableEq

structure Conv where
  l : Bool
  listenq : Bool
  inuse : Nat
  state : State
  /-- `none` is -1 -/
  sfd : Option Nat

def MAXCONV : Nat := 4096

/-- Where `protoclone` is called: for `clone`, or for `listen` of a conversation with the accepted socket. -/
inductive Caller
  | clone (omode : Nat)
  | listen (k : Key) (sfd omode : Nat)

/-- What is written to `ctl`; `other` changes neither `state` nor `sfd`. -/
inductive Cmd
  | connect
  | announce
  | hangup
  | other
  deriving DecidableEq

inductive Call
  /-- `protoclone`, before `qlock(&p->l)` -/
  | cloning (p : Proto) (f : Caller)
  /-- to look at the conversation `k`, or behind the last one -/
  | scanning (k : Key) (f : Caller)
  /-- before `qunlock(&c->l)` -/
  | cloned (k : Key) (f : Caller)
  /-- before `qunlock(&p->l)` -/
  | unlocking (k : Key) (f : Caller)
  /-- before `qunlock(&p->l)` after an error, or without a conversation -/
  | failing (p : Proto) (f : Caller)
  /-- `listen`, before `qlock(&cv->listenq)` -/
  | listening (k : Key) (omode : Nat)
  /-- before `so_accept` -/
  | accepting (k : Key) (omode : Nat)
  /-- with the new conversation -/
  | accepted (nc k : Key) (omode : Nat)
  /-- before `qunlock(&cv->listenq)` after an error -/
  | refusing (k : Key)
  /-- `ctl` and `data`, before `qlock(&p->l)` -/
  | opening (k : Key) (omode : Nat)
  /-- before `qlock(&cv->l)` -/
  | checking (k : Key) (omode : Nat)
  /-- before `qunlock(&cv->l)`; without an error or after one -/
  | opened (k : Key) (omode : Nat) (ok : Bool)
  /-- before `qunlock(&p->l)` -/
  | leaving (k : Key) (omode : Nat) (ok : Bool)
  /-- `closeconv`, before `qlock(&cv->l)` -/
  | closing (k : Key)
  | closed (k : Key)
  /-- a write to `ctl`, before `qlock(&c->l)` -/
  | ctl (x : Nat × Key) (cmd : Cmd)
  /-- before the `qunlock(&c->l)` for the host call -/
  | pausing (x : Nat × Key) (cmd : Cmd)
  /-- before the host call -/
  | outside (x : Nat × Key) (cmd : Cmd)
  /-- before the `qlock(&c->l)` after it; it has succeeded or not -/
  | returning (x : Nat × Key) (cmd : Cmd) (ok : Bool)
  | written (x : Nat × Key)

structure Host where
  realloc : Bool
  malloc : Bool
  permitted : Bool
  /-- `so_socket` or `so_accept`; `none` is an error -/
  socket : Option Nat
  /-- the other host calls, and the arguments of a command -/
  ok : Bool

structure St where
  conv : Key → Option Conv
  nc : Proto → Nat
  plock : Proto → Bool
  chans : List (Nat × Key)
  nchan : Nat
  calls : List Call
  /-- what `protoclone` has given out, with the number of its users just before -/
  given : List (Key × Nat)

/-- `sysfile.c`; OTRUNC, OCEXEC and ORCLOSE are 16, 32 and 64. -/
def openmode (o : Nat) : Option Nat :=
  if o ≥ (16 ||| 32 ||| 64 ||| 3) then none
  else
    let o := o % 16
    if o > 3 then none else if o = 3 then some 0 else some o

/-- A conversation from `malloc`. -/
def Conv.zero : Conv := ⟨false, false, 0, .idle, none⟩

namespace Call

/-- The protocol whose lock the call holds. -/
def p : Call → Option Proto
  | scanning k _ | cloned k _ | unlocking k _ | checking k _ | opened k _ _ | leaving k _ _ => some k.1
  | failing p _ => some p
  | _ => none

/-- The conversation whose lock the call holds. -/
def l : Call → Option Key
  | cloned k _ | opened k _ _ | closed k => some k
  | pausing x _ | written x => some x.2
  | _ => none

/-- The conversation whose `listenq` the call holds. -/
def listenq : Call → Option Key
  | cloning _ (.listen k _ _) | scanning _ (.listen k _ _) | cloned _ (.listen k _ _) | unlocking _ (.listen k _ _)
  | failing _ (.listen k _ _) => some k
  | accepting k _ | accepted _ k _ | refusing k => some k
  | _ => none

/-- The conversation that is counted as used for the call itself. -/
def user : Call → Option Key
  | cloned k _ | unlocking k _ | accepted k _ _ | opened k _ true | leaving k _ true | closing k => some k
  | _ => none

/-- The channel that a write is in. -/
def chan : Call → Option (Nat × Key)
  | ctl x _ | pausing x _ | outside x _ | returning x _ _ | written x => some x
  | _ => none

end Call

namespace St

/-- The conversation `k`; where there is none, as it would be made. -/
def at_ (s : St) (k : Key) : Conv := (s.conv k).getD .zero

def setConv (s : St) (k : Key) (c : Conv) : St := { s with conv := Function.update s.conv k (some c) }

def setLock (s : St) (p : Proto) (b : Bool) : St := { s with plock := Function.update s.plock p b }

/-- Open channels, and calls that open or close one. -/
def users (s : St) (k : Key) : Nat :=
  s.chans.countP (fun x => x.2 = k) + s.calls.countP fun c => c.user = some k

/-- The end of `ipopen`. -/
def openChan (s : St) (k : Key) (omode : Nat) : St :=
  if (openmode omode).isSome then { s with chans := (s.nchan, k) :: s.chans, nchan := s.nchan + 1 } else s

/-- The rest of `protoclone`, with the lock of the conversation. -/
def claim (s : St) (h : Host) (k : Key) (f : Caller) : St × Option Call :=
  let c := { s.at_ k with l := true, inuse := 1, state := .idle, sfd := none }
  let given := (k, s.users k) :: s.given
  match f with
  | .listen _ sfd _ => ({ s.setConv k { c with sfd := some sfd } with given := given }, some (.cloned k f))
  | .clone _ =>
    match h.socket with
    | some fd => ({ s.setConv k { c with sfd := some fd } with given := given }, some (.cloned k f))
    | none => (s.setConv k c, some (.failing k.1 f))

/-- The loop of `protoclone`, and what follows it. -/
def scan (s : St) (h : Host) (k : Key) (f : Caller) : St × Option Call :=
  if k.2 < s.nc k.1 then
    match s.conv k with
    | none => if h.malloc then s.claim h k f else (s, some (.failing k.1 f))
    | some c => if !c.l && c.inuse == 0 then s.claim h k f else (s, some (.scanning (k.1, k.2 + 1) f))
  else if MAXCONV ≤ s.nc k.1 then (s, some (.failing k.1 f))
  else if !h.realloc then (s, some (.failing k.1 f))
  else
    let n := s.nc k.1
    let s := { s with nc := Function.update s.nc k.1 (min (2 * n) MAXCONV) }
    if h.malloc then s.claim h (k.1, n) f else (s, some (.failing k.1 f))

/-- `ipopen` of `ctl` and `data`, with both locks. -/
def check (s : St) (h : Host) (k : Key) (omode : Nat) : St × Option Call :=
  let c := { s.at_ k with l := true }
  if !h.permitted then (s.setConv k c, some (.opened k omode false))
  else if c.inuse = 0 ∧ c.sfd = none then
    match h.socket with
    | some fd => (s.setConv k { c with inuse := 1, sfd := some fd }, some (.opened k omode true))
    | none => (s.setConv k { c with inuse := 1 }, some (.opened k omode false))
  else (s.setConv k { c with inuse := c.inuse + 1 }, some (.opened k omode true))

/-- `closeconv` -/
def close (s : St) (k : Key) : St :=
  let c := { s.at_ k with l := true, inuse := (s.at_ k).inuse - 1 }
  if c.inuse > 0 then s.setConv k c else s.setConv k { c with state := .idle, sfd := none }

/-- A command, with the lock: `connectctlmsg`, `announcectlmsg` and `hangup` up to the host call. -/
def command (s : St) (h : Host) (x : Nat × Key) (cmd : Cmd) : St × Option Call :=
  let c := { s.at_ x.2 with l := true }
  match cmd with
  | .connect =>
    if c.state ≠ .idle then (s.setConv x.2 c, some (.written x))
    else (s.setConv x.2 { c with state := .connecting }, some (if h.ok then .pausing x cmd else .written x))
  | .announce =>
    if c.state ≠ .idle then (s.setConv x.2 c, some (.written x))
    else if !h.ok then (s.setConv x.2 { c with state := .announcing }, some (.written x))
    else if x.2.1 = .udp then (s.setConv x.2 { c with state := .announced }, some (.written x))
    else (s.setConv x.2 { c with state := .announcing }, some (.pausing x cmd))
  | .hangup => (s.setConv x.2 c, some (if x.2.1 = .tcp then .pausing x cmd else .written x))
  | .other => (s.setConv x.2 c, some (.written x))

/-- A command after its host call, with the lock again. -/
def resume (s : St) (h : Host) (x : Nat × Key) (cmd : Cmd) (ok : Bool) : St :=
  let c := { s.at_ x.2 with l := true }
  match cmd with
  | .connect => s.setConv x.2 (if !ok || h.ok then { c with state := .connected } else c)
  | .announce => s.setConv x.2 (if ok then { c with state := .announced } else c)
  | .hangup => s.setConv x.2 (if ok then { c with sfd := none, state := .hungup } else c)
  | .other => s.setConv x.2 c

end St

/-- A call goes on, if it does not wait. Nothing is left of a call that has ended. -/
def advance (s : St) (h : Host) : Call → Option (St × Option Call)
  | .cloning p f => if s.plock p then none else some (s.setLock p true, some (.scanning (p, 0) f))
  | .scanning k f => some (s.scan h k f)
  | .cloned k f => some (s.setConv k { s.at_ k with l := false }, some (.unlocking k f))
  | .unlocking k f =>
    let s := s.setLock k.1 false
    match f with
    | .clone omode => some (s.openChan k omode, none)
    | .listen k' _ omode => some (s, some (.accepted k k' omode))
  | .failing p f =>
    match f with
    | .clone _ => some (s.setLock p false, none)
    | .listen k _ _ => some (s.setLock p false, some (.refusing k))
  | .listening k omode =>
    if (s.at_ k).listenq then none
    else some (s.setConv k { s.at_ k with listenq := true }, some (.accepting k omode))
  | .accepting k omode =>
    match h.socket with
    | some fd => some (s, some (.cloning k.1 (.listen k fd omode)))
    | none => some (s, some (.refusing k))
  | .accepted nc k omode =>
    if h.ok then
      let s := s.setConv nc { s.at_ nc with state := .connected }
      some ((s.setConv k { s.at_ k with listenq := false }).openChan nc omode, none)
    else some (s, some (.refusing k))
  | .refusing k => some (s.setConv k { s.at_ k with listenq := false }, none)
  | .opening k omode => if s.plock k.1 then none else some (s.setLock k.1 true, some (.checking k omode))
  | .checking k omode => if (s.at_ k).l then none else some (s.check h k omode)
  | .opened k omode ok => some (s.setConv k { s.at_ k with l := false }, some (.leaving k omode ok))
  | .leaving k omode ok =>
    let s := s.setLock k.1 false
    some (if ok then s.openChan k omode else s, none)
  | .closing k => if (s.at_ k).l then none else some (s.close k, some (.closed k))
  | .closed k => some (s.setConv k { s.at_ k with l := false }, none)
  | .ctl x cmd => if (s.at_ x.2).l then none else some (s.command h x cmd)
  | .pausing x cmd => some (s.setConv x.2 { s.at_ x.2 with l := false }, some (.outside x cmd))
  | .outside x cmd =>
    -- the handler of `announce` sets the state before it takes the lock
    if cmd = .announce ∧ !h.ok then
      some (s.setConv x.2 { s.at_ x.2 with state := .announced }, some (.returning x cmd false))
    else some (s, some (.returning x cmd h.ok))
  | .returning x cmd ok => if (s.at_ x.2).l then none else some (s.resume h x cmd ok, some (.written x))
  | .written x => some (s.setConv x.2 { s.at_ x.2 with l := false }, none)

inductive Act
  | clone (p : Proto) (omode : Nat)
  /-- `ctl` or `data` -/
  | openctl (k : Key) (omode : Nat)
  | listen (k : Key) (omode : Nat) (permitted : Bool)
  | close (i : Nat)
  | ctl (i : Nat) (cmd : Cmd)
  | go (i : Nat) (h : Host)

def step (s : St) : Act → Option St
  | .clone p omode => some { s with calls := .cloning p (.clone omode) :: s.calls }
  | .openctl k omode => if (s.conv k).isSome then some { s with calls := .opening k omode :: s.calls } else none
  | .listen k omode permitted =>
    if (s.conv k).isSome then
      some (if permitted ∧ (s.at_ k).state = .announced then { s with calls := .listening k omode :: s.calls } else s)
    else none
  | .close i =>
    s.chans[i]?.bind fun x =>
      if s.calls.any fun c => c.chan = some x then none
      else some { s with chans := s.chans.eraseIdx i, calls := .closing x.2 :: s.calls }
  | .ctl i cmd => s.chans[i]?.map fun x => { s with calls := .ctl x cmd :: s.calls }
  | .go i h =>
    s.calls[i]?.bind fun c =>
      (advance s h c).map fun r => { r.1 with calls := r.2.toList ++ s.calls.eraseIdx i }

def St.init : St :=
  { conv := fun _ => none
    nc := fun p => match p with
      | .udp => 64
      | .tcp => 2048
    plock := fun _ => false
    chans := []
    nchan := 0
    calls := []
    given := [] }

end Node9.Ip
