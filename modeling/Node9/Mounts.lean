import Node9.Lib.Linked
import Node9.Lib.Steps

/-!
# Name spaces (`cmount`, `cunmount`, `findmount` in `chan.c`, `pgrp.c`)

A `Pgrp` hashes its mount points (`Mhead`) by the path of the channel mounted upon, and every mount point has the
list of its mounts. Both are lists in memory: the cells of the first are the buckets and the fields `hash`, those
of the second the fields `mount` and `next`. Addresses are never given out twice, and memory comes zeroed.

`room` is the number of allocations that succeed before one fails. `smalloc` waits until it has memory, and takes
nothing from it. A channel is its address with the fields that are looked at here; `umh` of the channel that is
mounted goes along with it as an argument.
-/

namespace Node9.Mounts
open Linked Function

/-- What `eqchan(a, b, 1)` compares. -/
structure Loc where
  path : Nat
  type : Nat
  dev : Nat
deriving DecidableEq

structure Chan where
  chan : Nat
  loc : Loc
  /-- `qid.type & QTDIR` -/
  qtdir : Bool
  mchan : Option Loc
deriving DecidableEq

structure Mhead where
  r : Nat
  frm : Chan

structure Mount where
  mountid : Nat
  head : Nat
  copy : Option Nat
  /-- `to` -/
  toc : Chan
  mflag : BitVec 32
  spec : Option String

/-- A pointer to an `Mhead`. -/
inductive HCell
  | bucket (pg i : Nat)
  | hash (m : Nat)
deriving DecidableEq

/-- A pointer to a `Mount`. -/
inductive MCell
  | mount (m : Nat)
  | next (f : Nat)
deriving DecidableEq

structure St where
  hash : HCell → Option Nat
  next : MCell → Option Nat
  head : Nat → Mhead
  mount : Nat → Mount
  /-- the next address -/
  fresh : Nat
  room : Nat
  /-- the counter `mountid` of `pgrp.c` -/
  mountid : Nat
  npgrp : Nat
  ref : Nat → Nat
  /-- `ns` is write locked, and nobody is left to unlock it -/
  wlocked : Nat → Bool

inductive Err
  | Emount
  | Eunmount
  | Eunion
  | Enomem
deriving DecidableEq

def MORDER : BitVec 32 := 3

def MREPL : BitVec 32 := 0

def MBEFORE : BitVec 32 := 1

def MAFTER : BitVec 32 := 2

def MCREATE : BitVec 32 := 4

def MNTHASH : Nat := 2 ^ 5

def MOUNTH (a : Loc) : Nat := a.path &&& (MNTHASH - 1)

def eqchan (a b : Loc) : Bool := a.path == b.path && a.type == b.type && a.dev == b.dev

/-- An `int` as an `ulong`. -/
def toUlong (n : Nat) : Nat := ((BitVec.ofNat 32 n).signExtend 64).toNat

def St.fuel (s : St) : Nat := s.fresh + 1

/-- The cell that points to the `Mhead` of a channel, or the end of its hash chain. -/
def St.lookup (s : St) (pg : Nat) (old : Loc) : HCell × Option Nat :=
  seek .hash (fun m => eqchan (s.head m).frm.loc old) s.fuel (.bucket pg (MOUNTH old)) s.hash

def newmhead (frm : Chan) (s : St) : St :=
  { s with
    head := update s.head s.fresh ⟨1, frm⟩
    hash := update s.hash (.hash s.fresh) none
    next := update s.next (.mount s.fresh) none
    fresh := s.fresh + 1 }

def putmhead (m : Nat) (s : St) : St :=
  { s with head := update s.head m { s.head m with r := (s.head m).r - 1 } }

/-- A `Mount` at the next address. -/
def putmount (mh : Nat) (toc : Chan) (flag : BitVec 32) (spec : Option String) (s : St) : St :=
  { s with
    mount := update s.mount s.fresh ⟨toUlong (s.mountid + 1), mh, none, toc, flag, spec⟩
    next := update s.next (.next s.fresh) none
    mountid := s.mountid + 1
    fresh := s.fresh + 1 }

def newmount (mh : Nat) (toc : Chan) (flag : BitVec 32) (spec : Option String) (s : St) : Option Nat × St :=
  if s.room = 0 then (none, s)
  else (some s.fresh, putmount mh toc flag spec { s with room := s.room - 1 })

def mountfree : Nat → Option Nat → St → St
  | 0, _, s => s
  | _ + 1, none, s => s
  | n + 1, some m, s =>
    mountfree n (s.next (.next m)) { s with mount := update s.mount m { s.mount m with mountid := 0 } }

/-- `mh->mount && (mh->mount->next || !(mh->mount->mflag&MCREATE))` -/
def notSimple (s : St) (umh : Option Nat) : Bool :=
  match umh.bind fun mh => s.next (.mount mh) with
  | none => false
  | some f => (s.next (.next f)).isSome || (s.mount f).mflag &&& MCREATE == 0

/-- The `Mhead` of `old`, a new one if there is none. -/
def mountHead (pg : Nat) (old : Chan) (order : BitVec 32) (s : St) : Option Nat × St :=
  match s.lookup pg old.loc with
  | (_, some m) => (some m, s)
  | (l, none) =>
    let m := s.fresh
    let s := newmhead old s
    let s := { s with hash := update s.hash l (some m) }
    if order = MREPL then (some m, s)
    else
      match newmount m old 0 none s with
      -- the error goes past the unlocking of `ns`
      | (none, s) => (none, { s with wlocked := update s.wlocked pg true })
      | (some f, s) => (some m, { s with next := update s.next (.mount m) (some f) })

/-- The loop that copies the mounts from `um` on, to the cell `h`. -/
def copyUnion (m : Nat) (flg : BitVec 32) : Nat → Option Nat → MCell → St → Bool × St
  | 0, _, _, s => (true, s)
  | _ + 1, none, _, s => (true, s)
  | n + 1, some um, h, s =>
    match newmount m (s.mount um).toc flg (s.mount um).spec s with
    | (none, s) => (false, s)
    | (some f, s) =>
      let s := { s with next := update s.next h (some f) }
      copyUnion m flg n (s.next (.next um)) (.next f) s

/-- `MREPL` drops the mounts that are there. -/
def replace (m : Nat) (order : BitVec 32) (s : St) : St :=
  if (s.next (.mount m)).isSome ∧ order = MREPL then
    let s := mountfree s.fuel (s.next (.mount m)) s
    { s with next := update s.next (.mount m) none }
  else s

def setMcreate (nm : Nat) (flag : BitVec 32) (s : St) : St :=
  if flag &&& MCREATE ≠ 0 then
    { s with mount := update s.mount nm { s.mount nm with mflag := (s.mount nm).mflag ||| MCREATE } }
  else s

/-- The mounts from `nm` on become part of the list of `m`. -/
def splice (m nm : Nat) (order : BitVec 32) (s : St) : St :=
  match s.next (.mount m), decide (order = MAFTER) with
  | some f, true => { s with next := update s.next (.next (lastNode MCell.next s.fuel f s.next)) (some nm) }
  | v, _ =>
    let s := { s with next := update s.next (.next (lastNode MCell.next s.fuel nm s.next)) v }
    { s with next := update s.next (.mount m) (some nm) }

def attach (m nm : Nat) (flag : BitVec 32) (s : St) : St :=
  splice m nm (flag &&& MORDER) (setMcreate nm flag (replace m (flag &&& MORDER) s))

/-- `cmount` from where it has the `Mhead`. -/
def mountOn (m : Nat) (new : Chan) (umh : Option Nat) (flag : BitVec 32) (spec : Option String) (s : St) :
    Except Err Nat × St :=
  match newmount m new flag spec s with
  | (none, s) => (.error .Enomem, s)
  | (some nm, s) =>
    let order := flag &&& MORDER
    let flg := if order = MREPL then MAFTER else order
    match copyUnion m flg s.fuel ((umh.bind fun mh => s.next (.mount mh)).bind fun um => s.next (.next um))
      (.next nm) s with
    | (false, s) => (.error .Enomem, s)
    | (true, s) =>
      let s := attach m nm flag s
      (.ok (s.mount nm).mountid, s)

def cmount (pg : Nat) (new old : Chan) (umh : Option Nat) (flag : BitVec 32) (spec : Option String) (s : St) :
    Except Err Nat × St :=
  let order := flag &&& MORDER
  if new.qtdir ≠ old.qtdir then (.error .Emount, s)
  else if old.qtdir = false ∧ order ≠ MREPL then (.error .Emount, s)
  else if flag &&& MCREATE ≠ 0 ∧ notSimple s umh then (.error .Emount, s)
  else
    match mountHead pg old order s with
    | (none, s) => (.error .Enomem, s)
    | (some m, s) => mountOn m new umh flag spec s

/-- The mount is of the channel, or of one that it is the server of. -/
def isMounted (s : St) (mounted : Loc) (f : Nat) : Bool :=
  eqchan (s.mount f).toc.loc mounted || (s.mount f).toc.mchan.any fun c => eqchan c mounted

def cunmount (pg : Nat) (mnt : Loc) (mounted : Option Loc) (s : St) : Except Err Unit × St :=
  match s.lookup pg mnt with
  | (_, none) => (.error .Eunmount, s)
  | (l, some m) =>
    match mounted with
    | none =>
      let s := { s with hash := update s.hash l (s.hash (.hash m)) }
      let s := mountfree s.fuel (s.next (.mount m)) s
      (.ok (), putmhead m { s with next := update s.next (.mount m) none })
    | some c =>
      match unlinkFirst .next (isMounted s c) s.fuel (.mount m) s.next with
      | (_, none) => (.error .Eunion, s)
      | (next, some f) =>
        let s := mountfree s.fuel (some f) { s with next := update next (.next f) none }
        if s.next (.mount m) = none then
          (.ok (), putmhead m { s with hash := update s.hash l (s.hash (.hash m)) })
        else (.ok (), s)

inductive Found
  | no
  | mounted (m : Nat) (toc : Chan)
  /-- `m->mount->to` with no mount -/
  | nilptr
deriving DecidableEq

/-- For a `dev` below 2^31: the source takes it as an `int`. -/
def findmount (pg : Nat) (a : Loc) (s : St) : Found :=
  match (s.lookup pg a).2 with
  | none => .no
  | some m =>
    match s.next (.mount m) with
    | none => .nilptr
    | some f => .mounted m (s.mount f).toc

def domount (pg : Nat) (c : Chan) (s : St) : Found := findmount pg c.loc s

def newpgrp (s : St) : St :=
  { s with
    hash := fun c =>
      match c with
      | .bucket pg i => if pg = s.npgrp then none else s.hash (.bucket pg i)
      | .hash m => s.hash (.hash m)
    ref := update s.ref s.npgrp 1
    wlocked := update s.wlocked s.npgrp false
    npgrp := s.npgrp + 1 }

def closeHeads : Nat → Option Nat → St → St
  | 0, _, s => s
  | _ + 1, none, s => s
  | n + 1, some f, s =>
    let next := s.hash (.hash f)
    let s := mountfree s.fuel (s.next (.mount f)) s
    closeHeads n next (putmhead f { s with next := update s.next (.mount f) none })

def closeBuckets (pg : Nat) : List Nat → St → St
  | [], s => s
  | i :: is, s => closeBuckets pg is (closeHeads s.fuel (s.hash (.bucket pg i)) s)

def closepgrp (pg : Nat) (s : St) : St :=
  let s := { s with ref := update s.ref pg (s.ref pg - 1) }
  if s.ref pg ≠ 0 then s else closeBuckets pg (List.range MNTHASH) s

/-- What another process does with `newmount` while a name space is copied. -/
structure Newmount where
  mh : Nat
  toc : Chan
  flag : BitVec 32
  spec : Option String

def others (ns : List Newmount) (s : St) : St := ns.foldl (fun s n => putmount n.mh n.toc n.flag n.spec s) s

/-- `order` is the list from the argument on through the fields `order`. -/
def pgrpinsert (id : Nat → Nat) (m : Nat) : List Nat → List Nat
  | [] => [m]
  | f :: fs => if id m < id f then m :: f :: fs else f :: pgrpinsert id m fs

/-- The loop over the mounts. `env k` is what other processes do before the copy number `k`. -/
def copyMounts (env : Nat → List Newmount) (mh : Nat) :
    Nat → Option Nat → MCell → List Nat → St → Bool × List Nat × St
  | 0, _, _, order, s => (true, order, s)
  | _ + 1, none, _, order, s => (true, order, s)
  | n + 1, some m, link, order, s =>
    match newmount mh (s.mount m).toc (s.mount m).mflag (s.mount m).spec (others (env order.length) s) with
    | (none, s) => (false, order, s)
    | (some f, s) =>
      let order := pgrpinsert (fun f => (s.mount f).mountid) m order
      let s := { s with
        mount := update s.mount m { s.mount m with copy := some f }
        next := update s.next link (some f) }
      copyMounts env mh n (s.next (.next m)) (.next f) order s

def copyHeads (env : Nat → List Newmount) : Nat → Option Nat → HCell → List Nat → St → Bool × List Nat × St
  | 0, _, _, order, s => (true, order, s)
  | _ + 1, none, _, order, s => (true, order, s)
  | n + 1, some f, l, order, s =>
    if s.room = 0 then (false, order, s)
    else
      let mh := s.fresh
      let s := newmhead (s.head f).frm { s with room := s.room - 1 }
      let s := { s with hash := update s.hash l (some mh) }
      match copyMounts env mh s.fuel (s.next (.mount f)) (.mount mh) order s with
      | (false, order, s) => (false, order, s)
      | (true, order, s) => copyHeads env n (s.hash (.hash f)) (.hash mh) order s

def copyBuckets (env : Nat → List Newmount) (topg frmpg : Nat) : List Nat → List Nat → St → Bool × List Nat × St
  | [], order, s => (true, order, s)
  | i :: is, order, s =>
    match copyHeads env s.fuel (s.hash (.bucket frmpg i)) (.bucket topg i) order s with
    | (false, order, s) => (false, order, s)
    | (true, order, s) => copyBuckets env topg frmpg is order s

/-- `m->copy->mountid = mountid.ref++` -/
def renumber : List Nat → St → St
  | [], s => s
  | m :: order, s =>
    match (s.mount m).copy with
    | none => renumber order s
    | some c => renumber order { s with
        mount := update s.mount c { s.mount c with mountid := toUlong s.mountid }
        mountid := s.mountid + 1 }

def pgrpcpy (env : Nat → List Newmount) (topg frmpg : Nat) (s : St) : Except Err Unit × St :=
  match copyBuckets env topg frmpg (List.range MNTHASH) [] s with
  | (false, _, s) => (.error .Enomem, s)
  | (true, order, s) => (.ok (), renumber order (others (env order.length) s))

inductive Act
  | newpgrp
  /-- another process comes to share the group -/
  | incref (pg : Nat)
  | closepgrp (pg : Nat)
  | cmount (room pg : Nat) (new old : Chan) (umh : Option Nat) (flag : BitVec 32) (spec : Option String)
  | cunmount (pg : Nat) (mnt : Loc) (mounted : Option Loc)
  | newmount (n : Newmount)
  | pgrpcpy (room : Nat) (env : Nat → List Newmount) (topg frmpg : Nat)

/-- A process of the group exists, and `ns` can be locked. -/
def St.open (s : St) (pg : Nat) : Bool := s.ref pg ≠ 0 && !s.wlocked pg

/-- The table is as `newpgrp` makes it. -/
def St.clear (s : St) (pg : Nat) : Bool := (List.range MNTHASH).all fun i => (s.hash (.bucket pg i)).isNone

def step (s : St) : Act → Option St
  | .newpgrp => some (newpgrp s)
  | .incref pg => if s.ref pg ≠ 0 then some { s with ref := update s.ref pg (s.ref pg + 1) } else none
  | .closepgrp pg => if s.open pg ∨ 1 < s.ref pg then some (closepgrp pg s) else none
  | .cmount room pg new old umh flag spec =>
    if s.open pg ∧ umh.all (· < s.fresh) then some (cmount pg new old umh flag spec { s with room := room }).2 else none
  | .cunmount pg mnt mounted => if s.open pg then some (cunmount pg mnt mounted s).2 else none
  | .newmount n => some (others [n] s)
  | .pgrpcpy room env topg frmpg =>
    if s.open frmpg ∧ s.open topg ∧ frmpg ≠ topg ∧ s.clear topg then some
      (pgrpcpy env topg frmpg { s with room := room }).2 else none

def init : St where
  hash _ := none
  next _ := none
  head _ := ⟨0, ⟨0, ⟨0, 0, 0⟩, false, none⟩⟩
  mount _ := ⟨0, 0, none, ⟨0, ⟨0, 0, 0⟩, false, none⟩, 0, none⟩
  fresh := 0
  room := 0
  mountid := 0
  npgrp := 0
  ref _ := 0
  wlocked _ := false

end Node9.Mounts
