import Node9.Channel
import Node9.Lib.Buf

/-!
# The scheduler (`schedulers/roundrobin.lua`)

One task runs at a time. What it does up to its next yield is a list of actions, in any order and with any
arguments: system calls, channel operations, `spawn`, `import` of an application, `coroutine.resume` of the coroutine of
another task, the end. Between two tasks the
scheduler takes replies (`reply`, `noReply`) and then goes through `runq` (`next`). A reply comes for a request made
before; which one and when is left open.

A call can also be made in a coroutine of the task's own (`own`). A yield in it does not get to the scheduler: the
task goes on. `crash` is set when the scheduler raises an error or yields: nothing follows.

At the end of a task `resume` sends a report on its sync channel, with the dead task as the current process. `import`
takes any value for a sync channel.
-/

namespace Node9.Sched
open Buf Channel Function

/-- What a task raises: a string or a number, by its text, or any other value. -/
inductive Err
  | text (s : Bytes)
  | other

/-- What is sent: a value of an application, or `{proc.pid, proc.ctxt.name, errstr}`. -/
inductive Item (V : Type)
  | value (v : V)
  | report (pid : Nat) (name errstr : Bytes)

/-- `coroutine.status`, before the coroutine is created too. -/
inductive Co
  | unborn
  | suspended
  | running
  | dead
  deriving DecidableEq

/-- From so many values on `unpack` raises an error. -/
def LUAI_MAXCSTACK : Nat := 8000

/-- `ctxt.sync` -/
inductive Sync
  | none
  | chan (c : Nat)
  /-- anything but a channel with a number for its size; what its `send` does is left open, and here it raises an error -/
  | other

structure Ctxt where
  name : Bytes
  sync : Sync

inductive Crash
  /-- a coroutine that is not suspended was resumed: there is no colon in the error -/
  | resumed
  /-- an error value without two colons -/
  | value
  /-- `coroutine.yield` in `sendwait`, outside of a coroutine -/
  | yielded
  /-- no `send` to call -/
  | sync
  /-- `unpack` of the arguments of a new task -/
  | args
  deriving DecidableEq

structure St (V : Type) where
  /-- the channels, and `rdyq` -/
  chan : Channel.St (Item V)
  procs : Nat → Bool
  ctxt : Nat → Ctxt
  co : Nat → Co
  /-- `#proc.args`, up to the first `resume` -/
  args : Nat → Nat
  curproc : Option Nat
  runq : List Nat
  /-- the scheduler takes replies -/
  replying : Bool
  requests : List Nat
  /-- blocked coroutines of the tasks' own -/
  own : List (Nat × Wait)
  crash : Option Crash
  halted : Bool

variable {V : Type}

def colon : UInt8 := 0x3a

def lit (s : String) : Bytes := s.toList.map fun x => UInt8.ofNat x.toNat

/-- The message behind the second colon; an error that does not begin with `fail:` gets the place of the first. -/
def errstr (name : Bytes) : Err → Option Bytes
  | .other => none
  | .text gen =>
    let behind := (gen.dropWhile (· ≠ colon)).drop 1
    let line := behind.takeWhile (· ≠ colon)
    if gen.all (· ≠ colon) || behind.all (· ≠ colon) then none
    else
      let msg := (behind.drop line.length).drop 2
      if msg.take 5 = lit "fail:" then some msg
      else some (lit "module '" ++ name ++ lit "' aborted at line: " ++ line ++ lit ", '" ++ msg ++ lit "'")

/-- What the report says; it is empty for a normal end. -/
def message (name : Bytes) : Option Err → Option Bytes
  | none => some []
  | some e => errstr name e

/-- `send` has to wait. -/
def SendBlocks (s : Channel.St (Item V)) (c : Nat) : Prop := ¬ s.HasRoom c ∧ (s.chans s.latest).receivers = []

/-- `recv` has to wait. -/
def RecvBlocks (s : Channel.St (Item V)) (c : Nat) : Prop := ¬ s.HasData c ∧ (s.chans s.latest).senders = []

instance (s : Channel.St (Item V)) (c : Nat) : Decidable (SendBlocks s c) := inferInstanceAs (Decidable (_ ∧ _))
instance (s : Channel.St (Item V)) (c : Nat) : Decidable (RecvBlocks s c) := inferInstanceAs (Decidable (_ ∧ _))

namespace St

/-- A task goes on after its yield: in `recv`, it takes the value. -/
def goOn (s : Channel.St (Item V)) (t : Nat) : Channel.St (Item V) :=
  let s' := { s with wait := update s.wait t none }
  match s.wait t with
  | some ⟨.recv, c, g⟩ => s'.takePending c g
  | _ => s'

/-- `unpack` and `coroutine.resume` -/
def resume (s : St V) (t : Nat) : St V :=
  if LUAI_MAXCSTACK ≤ s.args t then { s with crash := some .args }
  else if s.co t = .suspended then
    { s with
      chan := goOn s.chan t
      co := update s.co t .running
      args := update s.args t 0
      curproc := some t }
  else { s with crash := some .resumed }

/-- `M.ready` -/
def ready (s : St V) (t : Nat) : St V := { s with chan := { s.chan with rdyq := s.chan.rdyq ++ [t] } }

def suspend (s : St V) (t : Nat) : St V := { s with co := update s.co t .suspended, curproc := none }

/-- A channel operation with the outcome `ch`, which blocks or not. -/
def operate (s : St V) (t : Nat) (ch : Channel.St (Item V)) (blocks own : Bool) : St V :=
  if !blocks then { s with chan := ch }
  else if own then
    { s with
      chan := { ch with wait := update ch.wait t none }
      own := (ch.wait t).toList.map (Prod.mk t) ++ s.own }
  else { s with chan := ch }.suspend t

/-- The references to a task that has ended are removed. -/
def remove (s : St V) (t : Nat) : St V :=
  { s with procs := update s.procs t false, curproc := none, halted := t == 1 }

/-- The end of a task, with an error or without. -/
def terminate (s : St V) (t : Nat) (err : Option Err) : St V :=
  let s := { s with co := update s.co t .dead }
  match message (s.ctxt t).name err with
  | none => { s with crash := some .value }
  | some msg =>
    match (s.ctxt t).sync with
    | .none => s.remove t
    | .other => { s with crash := some .sync }
    | .chan c =>
      let ch := s.chan.send t c (.report t (s.ctxt t).name msg)
      if SendBlocks s.chan c then { s with chan := ch, crash := some .yielded }
      else { s with chan := ch }.remove t

end St

inductive Act (V : Type)
  /-- `n9.sysrep` gives `t` -/
  | reply (t : Nat)
  | noReply
  | next
  | request (own : Bool)
  | create (size : Nat)
  | send (c : Nat) (v : V) (own : Bool)
  | recv (c : Nat) (own : Bool)
  /-- a coroutine of the task's own goes on -/
  | goOn (i : Nat)
  | spawn (child args : Nat)
  | app (name : Bytes) (sync : Sync)
  /-- the coroutine of the task `u` is resumed; it goes to its next yield, or ends, with an error or without -/
  | resume (u : Nat) (ended : Option (Option Err))
  | yield (gen : Bool)
  | exit
  | raise (e : Err)

/-- What the running task `t` does. -/
def act (s : St V) (t : Nat) : Act V → Option (St V)
  | .request own =>
    let s := { s with requests := s.requests ++ [t] }
    some (if own then s else s.suspend t)
  | .create size => some { s with chan := s.chan.create size }
  | .send c v own =>
    if c < s.chan.nchan then some (s.operate t (s.chan.send t c (.value v)) (SendBlocks s.chan c) own) else none
  | .recv c own =>
    if c < s.chan.nchan then some (s.operate t (s.chan.recv t c) (RecvBlocks s.chan c) own) else none
  | .goOn i =>
    match s.own[i]? with
    | some (t', ⟨k, c, g⟩) =>
      if t' = t then
        some { s with
          chan := if k = .recv then s.chan.takePending c g else s.chan
          own := s.own.eraseIdx i }
      else none
    | none => none
  | .spawn child args =>
    if s.co child = .unborn then
      some (St.ready { s with
        procs := update s.procs child true
        ctxt := update s.ctxt child (s.ctxt t)
        co := update s.co child .suspended
        args := update s.args child args } child)
    else none
  | .app name sync =>
    match sync with
    | .chan c =>
      if c < s.chan.nchan then some { s with ctxt := update s.ctxt t ⟨name, sync⟩ } else none
    | _ => some { s with ctxt := update s.ctxt t ⟨name, sync⟩ }
  | .resume u ended =>
    -- what it does on the way is not followed
    some (if s.co u = .suspended then
      { s with
        chan := St.goOn s.chan u
        co := update s.co u (if ended.isSome then .dead else .suspended) }
    else s)
  | .yield gen => some (if gen then (s.suspend t).ready t else s.suspend t)
  | .exit => some (s.terminate t none)
  | .raise e => some (s.terminate t (some e))
  | _ => none

def step (s : St V) (a : Act V) : Option (St V) :=
  if s.crash.isSome || s.halted then none
  else
    match s.curproc with
    | some t => act s t a
    | none =>
      match a with
      | .reply t =>
        if s.replying && s.requests.contains t then
          let s := { s with requests := s.requests.erase t }
          some (if s.procs t then s.resume t else { s with halted := true })
        else none
      | .noReply =>
        if s.replying then
          some { s with runq := s.chan.rdyq, chan := { s.chan with rdyq := [] }, replying := false }
        else none
      | .next =>
        if s.replying then none
        else
          match s.runq with
          | t :: runq => some (St.resume { s with runq := runq } t)
          | [] => some { s with replying := true }
      | _ => none

/-- `init` is ready. -/
def St.init (name : Bytes) : St V :=
  { chan := { Channel.init with rdyq := [1] }
    procs := update (fun _ => false) 1 true
    ctxt := fun _ => ⟨name, .none⟩
    co := update (fun _ => .unborn) 1 .suspended
    args := fun _ => 0
    curproc := none
    runq := []
    replying := true
    requests := []
    own := []
    crash := none
    halted := false }

end Node9.Sched
