import Node9.BufferSpec
import Node9.Fcall
import Node9.Lib.Keyed
import Node9.Lib.Steps

/-!
# The environment device (`devenv.c`, `env.c`)

A group of variables is a list, whose strings are in memory of their own: a pointer is the number of an allocation, and
what has been freed has no bytes. `smalloc` clears what it returns and there is always memory. A variable is asked for
by the path of its qid. `ulong` has 64 bits, and no offset is negative: whoever calls a read or a write of a device has
seen to it. An open or a create is the one of `#e/name`: `namec` walks to the name (which is not `.` or `..`) and opens
what is there, or creates it.
-/

namespace Node9.Env
open Buf Keyed Function
open Buffers (overwrite length_overwrite)

structure Mem where
  blk : Nat → Option Bytes
  fresh : Nat

namespace Mem
variable (m : Mem)

def str (p : Nat) : Bytes := (m.blk p).getD []

/-- `smalloc`, and what is written there. -/
def smalloc (b : Bytes) : Mem × Nat := (⟨update m.blk m.fresh (some b), m.fresh + 1⟩, m.fresh)

def free (p : Nat) : Mem := { m with blk := update m.blk p none }

/-- `memmove` to `p + offset`. -/
def poke (p offset : Nat) (a : Bytes) : Mem :=
  { m with blk := update m.blk p (some (overwrite (m.str p) offset a)) }

end Mem

structure Evalue where
  var : Nat
  val : Option Nat
  len : Nat
  qid : Qid

structure Egrp where
  path : UInt64
  vers : UInt64
  entries : List Evalue

/-- What an operation returns, or the error that it raises. -/
inductive Out
  | err (e : String)
  | chan (path : UInt64)
  | data (a : Bytes)
  | count (n : Nat)
  | group (g : Nat)
  | done

/-- `out` is what the last operation has returned. -/
structure St where
  mem : Mem
  grp : Nat → Egrp
  ngrp : Nat
  out : Out

def St.init : St := ⟨⟨fun _ => none, 0⟩, fun _ => ⟨0, 0, []⟩, 0, .done⟩

def OREAD : UInt32 := 0
def OWRITE : UInt32 := 1
def ORDWR : UInt32 := 2
def OEXEC : UInt32 := 3
def OTRUNC : UInt32 := 16
def OCEXEC : UInt32 := 32
def ORCLOSE : UInt32 := 64
def OEXCL : UInt32 := 0x1000

def Maxenvlen : Nat := 16 * 1024 - 1

/-- `sizeof(up->genbuf)` -/
def genbuf : Nat := 128

def Enonexist : String := "file does not exist"
def Eexist : String := "file already exists"
def Etoobig : String := "read or write too large"
def Ebadarg : String := "bad arg in system call"

/-- The loop of `egrpcpy`: the memory, `to->path` and the entries of the copy. -/
def copyEntries (mem : Mem) (path : UInt64) : List Evalue → Mem × UInt64 × List Evalue
  | [] => (mem, path, [])
  | e :: es =>
    let (mem, var) := mem.smalloc (mem.str e.var)
    let (mem, val, len) :=
      match e.val with
      | none => (mem, none, 0)
      | some v =>
        let (mem, p) := mem.smalloc ((mem.str v).take e.len)
        (mem, some p, e.len)
    let path := path + 1
    let (mem, last, es) := copyEntries mem path es
    (mem, last, ⟨var, val, len, ⟨path, 0, 0⟩⟩ :: es)

namespace St
variable (s : St)

def fail (e : String) : St := { s with out := .err e }

/-- The group is changed, and the memory. -/
def set (g : Nat) (mem : Mem) (eg : Egrp) (out : Out) : St :=
  { s with mem := mem, grp := update s.grp g eg, out := out }

/-- The loop for the entry with this path: what is before it and what is behind. -/
def find (g : Nat) (path : UInt64) : Option (List Evalue × Evalue × List Evalue) :=
  match (s.grp g).entries.dropWhile fun e => e.qid.path ≠ path with
  | [] => none
  | e :: es => some ((s.grp g).entries.takeWhile fun e => e.qid.path ≠ path, e, es)

def envopen (g : Nat) (path : UInt64) (mode : UInt32) : St :=
  match s.find g path with
  | none => s.fail Enonexist
  | some (l₁, e, l₂) =>
    match if mode = OWRITE ||| OTRUNC then e.val else none with
    | some v =>
      s.set g (s.mem.free v)
        { s.grp g with
          entries := l₁ ++ { e with val := none, len := 0, qid := { e.qid with vers := e.qid.vers + 1 } } :: l₂ }
        (.chan path)
    | none => { s with out := .chan path }

def envcreate (g : Nat) (name : Bytes) : St :=
  let eg := s.grp g
  if name.length ≥ genbuf then s.fail "name too long"
  else if eg.entries.any fun e => s.mem.str e.var = name then s.fail Eexist
  else
    let (mem, var) := s.mem.smalloc name
    let path := eg.path + 1
    s.set g mem ⟨path, eg.vers + 1, eg.entries ++ [⟨var, none, 0, ⟨path, 0, 0⟩⟩]⟩ (.chan path)

def envread (g : Nat) (path : UInt64) (n offset : Nat) : St :=
  match s.find g path with
  | none => s.fail Enonexist
  | some (_, e, _) =>
    let n := if offset > e.len then 0 else if offset + n > e.len then e.len - offset else n
    { s with out := .data (((e.val.elim [] s.mem.str).drop offset).take n) }

/-- No result stands for a write to the address 0. -/
def envwrite (g : Nat) (path : UInt64) (a : Bytes) (offset : Nat) : Option St :=
  if a.length = 0 then some { s with out := .count 0 }
  else
    let ve := offset + a.length
    if ve > Maxenvlen then some (s.fail Etoobig)
    else
      match s.find g path with
      | none => some (s.fail Enonexist)
      | some (l₁, e, l₂) =>
        let (mem, e) :=
          if ve > e.len then
            let b := (e.val.elim [] s.mem.str).take e.len
            let (mem, p) := s.mem.smalloc (b ++ List.replicate (ve - b.length) 0)
            (e.val.elim mem mem.free, { e with val := some p, len := ve })
          else (s.mem, e)
        e.val.map fun p =>
          s.set g (mem.poke p offset a)
            { s.grp g with entries := l₁ ++ { e with qid := { e.qid with vers := e.qid.vers + 1 } } :: l₂ }
            (.count a.length)

def envremove (g : Nat) (path : UInt64) : St :=
  match s.find g path with
  | none => s.fail Enonexist
  | some (l₁, e, l₂) =>
    let mem := s.mem.free e.var
    s.set g (e.val.elim mem mem.free) { s.grp g with vers := (s.grp g).vers + 1, entries := l₁ ++ l₂ } .done

def newegrp : St :=
  { s with grp := update s.grp s.ngrp ⟨0, 0, []⟩, ngrp := s.ngrp + 1, out := .group s.ngrp }

/-- A new group, and `egrpcpy` to it. -/
def egrpcpy (g : Nat) : St :=
  let (mem, path, es) := copyEntries s.mem 0 (s.grp g).entries
  { mem := mem, grp := update s.grp s.ngrp ⟨path, 0, es⟩, ngrp := s.ngrp + 1, out := .group s.ngrp }

def envwalk (g : Nat) (name : Bytes) : Option UInt64 :=
  ((s.grp g).entries.find? fun e => s.mem.str e.var = name).map fun e => e.qid.path

end St

/-- `openmode` raises no error. -/
def openmode (o : UInt32) : Bool :=
  o < OTRUNC ||| OCEXEC ||| ORCLOSE ||| OEXEC && o &&& ~~~(OTRUNC ||| OCEXEC ||| ORCLOSE) ≤ OEXEC

namespace St
variable (s : St)

def kopen (g : Nat) (name : Bytes) (omode : UInt32) : St :=
  if !openmode omode then s.fail Ebadarg
  else
    match s.envwalk g name with
    | none => s.fail Enonexist
    | some path => s.envopen g path (omode &&& ~~~OCEXEC)

def kcreate (g : Nat) (name : Bytes) (omode : UInt32) : St :=
  if !openmode (omode &&& ~~~OEXCL) then s.fail Ebadarg
  else
    match s.envwalk g name with
    | some path =>
      if omode &&& OEXCL ≠ 0 then s.fail Eexist else s.envopen g path ((omode ||| OTRUNC) &&& ~~~OCEXEC)
    | none => s.envcreate g name

end St

/-- What a process of the group `g` does. -/
inductive Action
  | newegrp
  | open (g : Nat) (name : Bytes) (omode : UInt32)
  | create (g : Nat) (name : Bytes) (omode : UInt32)
  | read (g : Nat) (path : UInt64) (n offset : Nat)
  | write (g : Nat) (path : UInt64) (a : Bytes) (offset : Nat)
  | remove (g : Nat) (path : UInt64)
  | copy (g : Nat)

def Action.group : Action → Option Nat
  | .newegrp => none
  | .open g _ _ | .create g _ _ | .read g _ _ _ | .write g _ _ _ | .remove g _ | .copy g => some g

def step (s : St) (a : Action) : Option St :=
  if a.group.all (· < s.ngrp) then
    match a with
    | .newegrp => some s.newegrp
    | .open g name omode => some (s.kopen g name omode)
    | .create g name omode => some (s.kcreate g name omode)
    | .read g path n offset => some (s.envread g path n offset)
    | .write g path a offset => s.envwrite g path a offset
    | .remove g path => some (s.envremove g path)
    | .copy g => some (s.egrpcpy g)
  else none

end Node9.Env
