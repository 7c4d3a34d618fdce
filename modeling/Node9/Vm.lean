import Node9.Lib.Linked

/-!
# Processes and process groups (`vm.c`)

The processes of a host, which are found through a hash table by their pids, and the groups they are in. A group has
its members in a doubly linked list, its subgroups in a singly linked one, and its parent. Addresses are numbers, and
are not used again. What is freed is `none`. A function that touches it, or panics, has no result, and one that
raises an error has one.
-/

namespace Node9.Vm
open Linked Function

/-- `nelem(proghash)` -/
def PROGHASH : Nat := 64

inductive ProgState
  | Palt
  | Psend
  | Precv
  | Pdebug
  | Pready
  | Prelease
  | Pexiting
  | Pbroken
  deriving DecidableEq

structure Flags where
  propagate : Bool := false
  notifyleader : Bool := false
  restrict : Bool := false
  restricted : Bool := false
  killed : Bool := false
  privatemem : Bool := false
  deriving DecidableEq

structure Osenv where
  pgrp : Option Nat := none
  fgrp : Option Nat := none
  egrp : Option Nat := none
  sigs : Option Nat := none
  debug : Bool := false

/-- As it is when the memory is cleared, but for the pid. -/
structure Vproc where
  pid : Nat
  pidlink : Option Nat := none
  state : ProgState := .Palt
  kill : Option String := none
  killstr : Option String := none
  flags : Flags := {}
  group : Option Nat := none
  grpprev : Option Nat := none
  grpnext : Option Nat := none
  env : Osenv := {}

structure Progs where
  id : Nat
  flags : Flags := {}
  parent : Option Nat := none
  child : Option Nat := none
  sib : Option Nat := none
  head : Option Nat := none
  tail : Option Nat := none

/-- `ref` has the references to the name spaces, descriptor groups, environments and signatures. -/
structure Table where
  vproc : Nat → Option Vproc
  progs : Nat → Option Progs
  proghash : Nat → Option Nat
  pidnum : Nat
  nvproc : Nat
  nprogs : Nat
  ref : Nat → Nat
  host : Osenv

namespace Table
variable (s : Table)

def setv (v : Nat) (f : Vproc → Vproc) : Option Table :=
  (s.vproc v).map fun x => { s with vproc := update s.vproc v (some (f x)) }

def setg (g : Nat) (f : Progs → Progs) : Option Table :=
  (s.progs g).map fun y => { s with progs := update s.progs g (some (f y)) }

def incref (r : Nat) : Table := { s with ref := update s.ref r (s.ref r + 1) }

def decref (r : Nat) : Table := { s with ref := update s.ref r (s.ref r - 1) }

end Table

section
variable {s : Table} {v g : Nat} {x : Vproc} {z : Progs} {f : Vproc → Vproc} {k : Progs → Progs}

theorem setv_eq (hv : s.vproc v = some x) :
    s.setv v f = some { s with vproc := update s.vproc v (some (f x)) } := by
  unfold Table.setv
  rw [hv]
  rfl

theorem setg_eq (hg : s.progs g = some z) :
    s.setg g k = some { s with progs := update s.progs g (some (k z)) } := by
  unfold Table.setg
  rw [hg]
  rfl

end

/-- A chain of the hash table begins in a bucket. -/
inductive Cell
  | proghash (h : Nat)
  | pidlink (v : Nat)
  deriving DecidableEq

def cells (s : Table) : Cell → Option Nat
  | .proghash h => s.proghash h
  | .pidlink v => (s.vproc v).bind Vproc.pidlink

def hasPid (s : Table) (pid v : Nat) : Bool := (s.vproc v).any fun x => x.pid = pid

/-- The cell that points to the process with this pid, and what is in it. -/
def pidlook (s : Table) (pid : Nat) : Cell × Option Nat :=
  seek Cell.pidlink (hasPid s pid) (s.nvproc + 1) (.proghash (pid % PROGHASH)) (cells s)

def progpid (s : Table) (pid : Nat) : Option Nat := (pidlook s pid).2

/-- `*ph = v` -/
def store (s : Table) (ph : Cell) (v : Option Nat) : Option Table :=
  match ph with
  | .proghash h => some { s with proghash := update s.proghash h v }
  | .pidlink u => s.setv u fun x => { x with pidlink := v }

/-- The subgroups of a group begin in its `child`. -/
inductive GCell
  | child (g : Nat)
  | sib (g : Nat)
  deriving DecidableEq

def gcells (s : Table) : GCell → Option Nat
  | .child g => (s.progs g).bind Progs.child
  | .sib g => (s.progs g).bind Progs.sib

def gstore (s : Table) (l : GCell) (g : Option Nat) : Option Table :=
  match l with
  | .child h => s.setg h fun y => { y with child := g }
  | .sib h => s.setg h fun y => { y with sib := g }

/-- After `q`, or at the head of the group, comes `r`. -/
def setNext (g : Nat) (q r : Option Nat) (s : Table) : Option Table :=
  match q with
  | some u => s.setv u fun y => { y with grpnext := r }
  | none => s.setg g fun y => { y with head := r }

/-- Before `r`, or at the tail of the group, comes `q`. -/
def setPrev (g : Nat) (q r : Option Nat) (s : Table) : Option Table :=
  match r with
  | some u => s.setv u fun y => { y with grpprev := q }
  | none => s.setg g fun y => { y with tail := q }

def addgrp (n p : Nat) (s : Table) : Option Table := do
  let x ← s.vproc p
  match x.group with
  | none => s.setv n fun z => { z with group := none }
  | some g =>
    let y ← s.progs g
    let last := if y.head = none then none else y.tail
    let s ← s.setv n fun z => { z with grpprev := last, grpnext := none, group := some g }
    let s ← (if y.head = none then s.setg g fun z => { z with head := some n }
      else y.tail.bind fun t => s.setv t fun z => { z with grpnext := some n })
    s.setg g fun z => { z with tail := some n }

/-- `delgrp` takes `p` out of the members of its group `g`. -/
def leave (p g : Nat) (s : Table) : Option Table := do
  let x ← s.vproc p
  let s ← setNext g x.grpprev x.grpnext s
  let s ← setPrev g x.grpprev x.grpnext s
  s.setv p fun y => { y with grpprev := none, grpnext := none, group := none }

/-- `*l = g->sib`, where `l` is found in the subgroups of the parent. -/
def unlinkSub (g pg : Nat) (s : Table) : Option Table := do
  let y ← s.progs g
  gstore s (seek GCell.sib (· == g) (s.nprogs + 1) (.child pg) (gcells s)).1 y.sib

/-- `cg->sib = pg->child; pg->child = cg;` -/
def putSub (cg : Nat) (pg : Option Nat) (s : Table) : Option Table :=
  match pg with
  | none => some s
  | some h => do
    let w ← s.progs h
    let s ← s.setg cg fun z => { z with sib := w.child }
    s.setg h fun w => { w with child := some cg }

/-- The first subgroup of `g`, which is `cg`, goes to `pg`. -/
def adoptOne (g cg : Nat) (pg : Option Nat) (s : Table) : Option Table := do
  let z ← s.progs cg
  let s ← s.setg g fun y => { y with child := z.sib }
  let s ← s.setg cg fun z => { z with parent := pg }
  putSub cg pg s

/-- `while((cg = g->child) != nil)` -/
def adopt (g : Nat) (pg : Option Nat) : Nat → Table → Option Table
  | 0, _ => none
  | n + 1, s => do
    let y ← s.progs g
    match y.child with
    | none => some s
    | some cg =>
      let s ← adoptOne g cg pg s
      adopt g pg n s

def detach (g : Nat) (pg : Option Nat) (s : Table) : Option Table :=
  match pg with
  | none => some s
  | some h => unlinkSub g h s

/-- A group with no members goes, and its subgroups go to its parent. -/
def dissolve (g : Nat) (s : Table) : Option (Option Nat × Table) := do
  let y ← s.progs g
  let s ← detach g y.parent s
  let s ← adopt g y.parent (s.nprogs + 1) s
  some (y.parent, { s with progs := update s.progs g none })

/-- `do … while((g = pg) != nil && g->head == nil)` -/
def moveUp : Nat → Nat → Table → Option (Option Nat × Table)
  | 0, _, _ => none
  | n + 1, g, s => do
    let (pg, s) ← dissolve g s
    match pg with
    | none => some (none, s)
    | some h =>
      let y ← s.progs h
      if y.head = none then moveUp n h s else some (some h, s)

def delgrp (p : Nat) (s : Table) : Option (Option Nat × Table) := do
  let x ← s.vproc p
  match x.group with
  | none => some (none, s)
  | some g =>
    let s ← leave p g s
    let y ← s.progs g
    if y.head = none then moveUp (s.nprogs + 1) g s else some (some g, s)

/-- `p` leads its group. -/
def leads (p : Nat) (s : Table) : Option Bool := do
  let x ← s.vproc p
  match x.group with
  | none => some false
  | some g =>
    let y ← s.progs g
    some (y.id == x.pid)

/-- A flag of the group, if there is one. -/
def groupFlag (f : Flags → Bool) (g : Option Nat) (s : Table) : Option Bool :=
  match g with
  | none => some false
  | some h => (s.progs h).map fun y => f y.flags

def Enomem : String := "out of memory: kernel"

def exNomem : String := "out of memory: main"

/-- `mem` says whether there is memory for a group. -/
def newgrp (p : Nat) (mem : Bool) (s : Table) : Option (Except String Unit × Table) := do
  if ← leads p s then some (.ok (), s)
  else if mem = false then some (.error Enomem, s)
  else
    let x ← s.vproc p
    let s ← s.setv p fun x => { x with flags := { x.flags with propagate := false, notifyleader := false } }
    let privatemem ← groupFlag Flags.privatemem x.group s
    let (pg, s) ← delgrp p s
    let g := s.nprogs
    let s : Table := { s with
      progs := update s.progs g (some { id := x.pid, flags := { privatemem }, head := some p, tail := some p })
      nprogs := g + 1 }
    let s ← s.setv p fun x => { x with group := some g }
    let s ← putSub g pg s
    let s ← s.setg g fun z => { z with parent := pg }
    some (.ok (), s)

/-- The flags of `new_vproc`. -/
structure Dup where
  pg : Bool
  fdg : Bool
  envg : Bool

structure Mem where
  vproc : Bool
  group : Bool

/-- A new process, which is in the table but in no group. -/
def enter (s : Table) : Option (Nat × Table) := do
  let n := s.nvproc
  let pid := s.pidnum + 1
  -- panic("no pids")
  if 2 ^ 31 ≤ pid then none
  else
    let s : Table := { s with vproc := update s.vproc n (some { pid }), nvproc := n + 1, pidnum := pid }
    let ph := pidlook s pid
    if ph.2 ≠ none then none
    else
      let s ← store s ph.1 (some n)
      some (n, s)

def dupref (dup : Bool) (r : Option Nat) (s : Table) : Option (Option Nat × Table) :=
  if dup then r.map fun a => (some a, s.incref a) else some (none, s)

/-- A host has all that its flags ask for. -/
def fromHost (n : Nat) (dup : Dup) (mem : Bool) (s : Table) : Option (Except String Unit × Table) := do
  let (pgrp, s) ← dupref dup.pg s.host.pgrp s
  let (fgrp, s) ← dupref dup.fdg s.host.fgrp s
  let (egrp, s) ← dupref dup.envg s.host.egrp s
  let s ← s.setv n fun x => { x with env := { x.env with pgrp, fgrp, egrp } }
  newgrp n mem s

def share (r : Option Nat) (s : Table) : Table :=
  match r with
  | none => s
  | some a => s.incref a

def fromVm (n p : Nat) (s : Table) : Option (Except String Unit × Table) := do
  let s ← addgrp n p s
  let vp ← s.vproc p
  let s ← s.setv n fun x => { x with
    flags := if vp.flags.restrict then { vp.flags with restricted := true } else vp.flags
    env := vp.env }
  let pgrp ← vp.env.pgrp
  let fgrp ← vp.env.fgrp
  let egrp ← vp.env.egrp
  let s := share vp.env.sigs (((s.incref pgrp).incref fgrp).incref egrp)
  let killed ← groupFlag Flags.killed vp.group s
  let s ← s.setv p fun x => { x with flags := { x.flags with killed := x.flags.killed || killed } }
  match vp.kill with
  | some e => some (.error e, s)
  | none => if vp.flags.killed || killed then some (.error "", s) else some (.ok (), s)

inductive Parent
  | host
  | vm (p : Nat)

/-- `p->hproc` can be read. -/
def Parent.live (s : Table) : Parent → Bool
  | .host => true
  | .vm p => (s.vproc p).isSome

def place (n : Nat) (parent : Parent) (dup : Dup) (mem : Bool) (s : Table) : Option (Except String Unit × Table) :=
  match parent with
  | .host => fromHost n dup mem s
  | .vm p => fromVm n p s

def newVproc (parent : Parent) (dup : Dup) (mem : Mem) (s : Table) : Option (Except String Nat × Table) := do
  if parent.live s = false then none
  else if mem.vproc = false then some (.error exNomem, s)
  else
    let (n, s) ← enter s
    let (r, s) ← place n parent dup mem.group s
    some (r.map fun _ => n, s)

/-- `*ph = p->pidlink` -/
def unhash (p pid : Nat) (s : Table) : Option Table := do
  let ph := pidlook s pid
  -- panic("lost pid")
  let _ ← ph.2
  let y ← s.vproc p
  store s ph.1 y.pidlink

def close (r : Option Nat) (s : Table) : Table :=
  match r with
  | none => s
  | some a => s.decref a

def delprog (p : Nat) (s : Table) : Option Table := do
  let x ← s.vproc p
  let s := close x.env.sigs (close x.env.egrp (close x.env.fgrp (close x.env.pgrp s)))
  let (_, s) ← delgrp p s
  let s ← unhash p x.pid s
  some { s with vproc := update s.vproc p none }

end Node9.Vm
