import Node9.Ip
import Node9.QioFlow

/-!
# Pipes (`devpipe.c`)

The side `data0` of a pipe reads `q[0]` and writes `q[1]`, `data1` the other way. The queues are the streams of `qio.c`,
and a step is what a process does under one lock: of a queue, or of the pipe. So a run is any interleaving of the calls
of any number of processes. `pipeclose` is two steps when it hangs up, as the processes of the other side go on between
`qhangup` and `qclose`; what it does from `qclose` on is `pipeclosed`.

A channel is its place in the list of all channels that there were, of which those that were closed are `none`. Its
holders call `pipeclose` when no other call with it is going on. A channel is opened once: all callers of the device do
so, and `devclone` panics if it gets one that is open.

A session goes from a moment at which both sides are closed to the next. The `delivered` and `enqueued` of a stream
begin with it, and so does `shut`: that the last channel of a side was closed.
-/

namespace Node9.Devpipe
open Buf Qio Steps Function

inductive Side
  | data0
  | data1
deriving DecidableEq

def Side.other : Side → Side
  | .data0 => .data1
  | .data1 => .data0

inductive File
  | dir
  | data (d : Side)
deriving DecidableEq

structure Chan where
  qid : File
  /-- `flag & COPEN` -/
  copen : Bool

def Chan.side (c : Chan) : Option Side :=
  match c.qid with
  | .dir => none
  | .data d => if c.copen then some d else none

/-- A queue, and the channel of the `qread` that is at the copy. -/
structure End where
  stream : Stream
  reader : Option Nat

structure Pipe where
  user : Bytes
  ref : Int
  qref : Side → Int
  q : Side → End
  chans : List (Option Chan)
  /-- A `pipeclose` has hung up this side, and not closed it yet. It has the lock of the pipe. -/
  closing : Option Side
  shut : Side → Bool

def pipeqsize : Int := 32 * 1024

/-- `qopen(.., 0, 0, 0)` -/
def mode : Mode := ⟨⟨false, false⟩, false⟩

/-- `pipedir` has these permissions for both files. -/
def perm : Nat := 0o660

def pipeattach (user : Bytes) : Pipe :=
  ⟨user, 1, fun _ => 0, fun _ => ⟨(Fifo.qopen pipeqsize).stream, none⟩, [some ⟨.dir, false⟩], none, fun _ => false⟩

namespace Pipe
variable (s : Pipe)

def chan (i : Nat) : Option Chan := s.chans[i]?.join

/-- The side that the channel is open on. -/
def side (i : Nat) : Option Side := (s.chan i).bind Chan.side

/-- How many channels are open on a side. -/
def opens (d : Side) : Nat := s.chans.countP fun c => c.bind Chan.side = some d

/-- The queue that the side reads was hung up or closed. -/
def hung (d : Side) : Bool := s.shut d || s.shut d.other || s.closing = some d.other

def onEnd (d : Side) (f : End → Option End) : Option Pipe :=
  (f (s.q d)).map fun e => { s with q := update s.q d e }

end Pipe

/-- `data` -/
def nameData : Bytes := [100, 97, 116, 97]

/-- `data1` -/
def nameData1 : Bytes := [100, 97, 116, 97, 49]

def pipegen (name : Bytes) : Option Side :=
  if name = nameData then some .data0 else if name = nameData1 then some .data1 else none

/-- `.` and `..` are the directory. Without all names there is no clone. -/
def devwalk : File → List Bytes → Option File
  | f, [] => some f
  | .data _, _ :: _ => none
  | .dir, n :: names =>
    if n = [46] ∨ n = [46, 46] then devwalk .dir names else (pipegen n).bind fun d => devwalk (.data d) names

def devpermcheck (up eve fileuid : Bytes) (perm omode : Nat) : Bool :=
  let perm := if up = fileuid then perm else if up = eve then perm <<< 3 else perm <<< 6
  let t := [0o400, 0o200, 0o600, 0o100].getD (omode &&& 3) 0
  t &&& perm = t

def pipewalk (s : Pipe) (c : Chan) (names : List Bytes) : Pipe :=
  match devwalk c.qid names with
  | none => s
  | some f => { s with ref := s.ref + 1, chans := s.chans ++ [some ⟨f, false⟩] }

/-- The lock of the pipe is only for the data files. An error changes nothing. -/
def pipeopen (eve : Bytes) (s : Pipe) (i : Nat) (c : Chan) (up : Bytes) (omode : Nat) : Option Pipe :=
  match c.qid with
  | .dir => some (if omode ≠ 0 then s else { s with chans := s.chans.set i (some { c with copen := true }) })
  | .data d =>
    if (Ip.openmode omode).isNone then some s
    else if s.closing.isSome then none
    else if devpermcheck up eve s.user perm omode then
      some { s with
        qref := update s.qref d (s.qref d + 1), chans := s.chans.set i (some { c with copen := true }) }
    else some s

def qreopen (inilim : Int) (q : Fifo) : Fifo := { q with closed := false, starve := true, eof := 0, limit := inilim }

def End.reopen (e : End) : End :=
  { e with stream := { e.stream with q := qreopen pipeqsize e.stream.q, delivered := [], enqueued := [] } }

/-- If both sides are closed, they are reusable. -/
def release (s : Pipe) : Pipe :=
  if s.qref .data0 = 0 ∧ s.qref .data1 = 0 then
    { s with ref := s.ref - 1, q := fun d => (s.q d).reopen, shut := fun _ => false }
  else { s with ref := s.ref - 1 }

def End.map (e : End) (f : Fifo → Fifo) : End := { e with stream := { e.stream with q := f e.stream.q } }

/-- Closing either side hangs up the stream. -/
def pipeclose (s : Pipe) (i : Nat) (c : Chan) : Pipe :=
  let s := { s with chans := s.chans.set i none }
  match c.side with
  | none => release s
  | some d =>
    let qref := update s.qref d (s.qref d - 1)
    if qref d = 0 then
      { s with
        qref := qref, q := update s.q d.other ((s.q d.other).map (Flow.qhangup [])), closing := some d }
    else release { s with qref := qref }

def pipeclosed (s : Pipe) (d : Side) : Pipe :=
  release { s with
    q := update s.q d ((s.q d).map Fifo.qclose), shut := update s.shut d true, closing := none }

inductive Act
  | walk (i : Nat) (names : List Bytes)
  | open (i : Nat) (up : Bytes) (omode : Nat)
  | read (i len : Nat)
  | putback (i : Nat)
  | bread (i len : Nat) (block : Option Nat)
  | write (i : Nat) (p : Bytes) (len sofar : Int) (block : Option Nat)
  | bwrite (i : Nat) (b : Block)
  | close (i : Nat)
  | closed

/-- A step of `qio.c` by the holder of channel `i`, who is or is not at the copy of a `qread` after it. -/
def onQueue (s : Pipe) (d : Side) (a : Qio.Act) (reader : Stream → Option Nat) : Option Pipe :=
  s.onEnd d fun e => (turn mode e.stream a).map fun t => ⟨t, reader t⟩

def step (eve : Bytes) (s : Pipe) : Act → Option Pipe
  | .walk i names =>
    (s.chan i).bind fun c => if c.copen ∨ s.closing.isSome then none else some (pipewalk s c names)
  | .open i up omode => (s.chan i).bind fun c => if c.copen then none else pipeopen eve s i c up omode
  | .read i len => (s.side i).bind fun d => onQueue s d (.take len) fun t => t.left.map fun _ => i
  | .putback i =>
    (s.side i).bind fun d => if (s.q d).reader = some i then onQueue s d .putback fun _ => none else none
  | .bread i len block => (s.side i).bind fun d => onQueue s d (.qbread len block) fun _ => (s.q d).reader
  | .write i p len sofar block =>
    (s.side i).bind fun d => onQueue s d.other (.qwrite p len sofar block) fun _ => (s.q d.other).reader
  | .bwrite i b => (s.side i).bind fun d => onQueue s d.other (.qbwrite b) fun _ => (s.q d.other).reader
  | .close i =>
    (s.chan i).bind fun c =>
      if s.closing.isSome ∨ (s.q .data0).reader = some i ∨ (s.q .data1).reader = some i then none
      else some (pipeclose s i c)
  | .closed => s.closing.map (pipeclosed s)

/-! ### What is expected -/

/-- A side that reads `rd` and writes `wr` when the other has been closed: what is left, then the end of the file, and
from the fourth time on an error; and its writes fail. -/
structure Ended (rd wr : Fifo) : Prop where
  rest : rd.bfirst ≠ [] → ∀ len, ∃ r, (rd.taken mode len).1 = .data r
  eof : rd.bfirst = [] → ∀ len, (rd.taken mode len).1 = if rd.eof < 3 then .eof else .error
  brest : rd.bfirst ≠ [] → ∀ len addr, ∃ b, (rd.qbread mode.toKind len (some addr)).1 = .data b
  beof : rd.bfirst = [] → ∀ len block, (rd.qbread mode.toKind len block).1 = if rd.eof < 3 then .eof else .error
  write : ∀ p len sofar block r, wr.qwrite mode.toKind p len sofar block = some r → r = (.error, wr)
  bwrite : ∀ b, wr.qbwrite mode.toKind b = some (.error, wr)

structure Session (s : Pipe) : Prop where
  counts : ∀ d, s.qref d = s.opens d
  order : ∀ d, (s.q d).stream.delivered <+: (s.q d).stream.enqueued
  rest : ∀ d, s.shut d = false → Intact (s.q d).stream
  ended : ∀ d, s.shut d.other = true → Ended (s.q d).stream.q (s.q d.other).stream.q

/-- No session ends with bytes that the other side has not read, and a `qbread` that splits a block gets one for the
rest. -/
def Careful (s : Pipe) : Act → Prop
  | .bread i len block => ∀ d, s.side i = some d → (Qio.Act.qbread len block).Orderly (s.q d).stream
  | .closed => ∀ d, s.closing = some d → s.qref d.other = 0 → bytes (s.q d.other).stream.q.bfirst = []
  | _ => True

end Node9.Devpipe
