import Node9.Fcall
import Node9.Host

/-!
# Exporting a tree of the host (`exportfs.c`, `chan.c`, `devfs-posix.c`)

The requests of one connection that make, move or drop fids, over channels of the posix device. `mnt` is the
mount table of the exporter's name space; what is mounted is again a directory of the device. Every request
comes with what the host decides about it: whether the checks of permissions and modes let it pass, whether
a later call of `fscreate` fails after the file has been made, and the numbers of a new file.

Qid versions, modes and owners decide nothing here and are left out, as are the unique qids of the replies.
-/

namespace Node9.Export
open Buf Names Host

structure Chan where
  dev : Nat
  /-- `qid.path` -/
  path : UInt64
  /-- `qid.type & QTDIR` -/
  dir : Bool
  /-- the name in the name space -/
  name : Bytes
  /-- `FS(c)->name`, the host's name -/
  fsname : Bytes
  /-- `FS(c)->rootqid.path` -/
  rootpath : UInt64
  /-- `COPEN`, and the file that is open -/
  fd : Option (Nat × Nat)
  /-- `CRCLOSE` -/
  rclose : Bool

structure Mount where
  target : Chan
  /-- `MCREATE` -/
  create : Bool

/-- A mount point; what is mounted there first, and the rest of the union. -/
structure Mhead where
  source : Chan
  mount : Mount
  next : List Mount

structure St where
  host : Fs
  root : Chan
  mnt : List Mhead
  fids : UInt32 → Option Chan

inductive Err
  | Enofid
  | Edupfid
  | Eopen
  | Emode
  | Efilename
  | Ebadchar
  | Ebadstat
  | Enocreate
  | Eperm
  /-- an error of the device or of the host -/
  | errstr
deriving DecidableEq

structure Luck where
  grant : Bool
  finish : Bool
  dev : Nat
  ino : Nat

/-- `qid.path` of `fsqid`. -/
def fsqidPath (id : Nat × Nat) : UInt64 :=
  let dev := UInt16.ofNat id.1
  let dev := if dev &&& 0x8000 ≠ 0 then dev ^^^ 0x8080 else dev
  (dev.toUInt64 <<< 48) ^^^ UInt64.ofNat id.2

def Chan.clone (c : Chan) : Chan := { c with fd := none, rclose := false }

def Chan.setQid (c : Chan) (nd : Node) : Chan := { c with path := fsqidPath nd.id, dir := nd.kind = .dir }

/-- `fswalk` with one name. -/
def fswalk (h : Fs) (c : Chan) (n : Bytes) : Option Chan :=
  if !c.dir then none
  else if n = [dot] ∨ (isdotdot n ∧ c.path = c.rootpath) then some c.clone
  else
    let next := addelem c.fsname n
    match (h.locate next).bind h.get with
    | none => none
    | some nd => some { c.clone.setQid nd with fsname := next }

def OREAD : UInt8 := 0
def ORCLOSE : UInt8 := 64
def DMDIR : UInt32 := 0x80000000

def fsopen (h : Fs) (c : Chan) (mode : UInt8) (luck : Luck) : Option Chan :=
  if c.dir ∧ mode ≠ OREAD then none
  else if !luck.grant then none
  else
    match (h.stat c.fsname).bind h.get with
    | none => none
    | some nd => if c.dir ∧ nd.kind ≠ .dir then none else some { c with fd := some nd.id }

/-- The host afterwards, and the channel if it came to the end. -/
def fscreate (h : Fs) (c : Chan) (name : Bytes) (mode : UInt8) (perm : UInt32) (luck : Luck) : Fs × Option Chan :=
  if !luck.grant ∨ name = [dot] ∨ name = [dot, dot] then (h, none)
  else
    let n := fswalkpath c.fsname name
    let isdir := perm &&& DMDIR ≠ 0
    let nd : Node := ⟨luck.dev, luck.ino, if isdir then .dir else .file⟩
    -- a directory is only created for reading
    if isdir ∧ mode &&& 3 ≠ 0 ∧ mode &&& 3 ≠ 3 then (h, none)
    else
      match if isdir then h.mkdir n nd else h.creat n nd with
      | none => (h, none)
      | some h' => (h', if luck.finish then some { c.setQid nd with fsname := n, fd := some nd.id } else none)

def fsremove (h : Fs) (c : Chan) (luck : Luck) : Option Fs := if luck.grant then h.remove (!c.dir) c.fsname else none

/-- The new name, if `fswstat` changes the name. -/
def fswstat (h : Fs) (c : Chan) (name : Bytes) (luck : Luck) : Option (Fs × Chan) :=
  if c.fd = none ∧ h.stat c.fsname = none then none
  else if name = [] ∨ name = fslastelem c.fsname then some (h, c)
  else if !validname name ∨ !luck.grant then none
  else
    let ph := fswalkpath (fswalkpath c.fsname [dot, dot]) name
    match h.rename c.fsname ph with
    | none => none
    | some h' => some (h', { c with fsname := ph })

/-- `fsclose`, which removes the file if the channel says so. -/
def fsclose (h : Fs) (c : Chan) (luck : Luck) : Fs := if c.rclose then (fsremove h c luck).getD h else h

def eqchan (a b : Chan) : Bool := a.path = b.path ∧ a.dev = b.dev

def findmount (mnt : List Mhead) (c : Chan) : Option Mhead := mnt.find? fun m => eqchan m.source c

/-- From a mounted directory to the place where it is mounted, if `name` is the name of this place. -/
def undomount (mnt : List Mhead) (c : Chan) (name : Bytes) : Chan :=
  mnt.foldl (fun c m => if m.source.name = name ∧
    (m.mount :: m.next).any fun t => eqchan c t.target then m.source else c) c

/-- `walk` with one name and `nomount` 0. -/
def walk (mnt : List Mhead) (h : Fs) (c : Chan) (name : Bytes) : Option Chan :=
  if !c.dir then none
  else
    let dotdot := isdotdot name
    let mh := if dotdot then none else findmount mnt c
    let wq :=
      match mh with
      | none => fswalk h c name
      | some m => (fswalk h m.mount.target name).or (m.next.findSome? fun f => fswalk h f.target name)
    match wq with
    | none => none
    | some nc =>
      let cname := addelem c.name name
      let nc := if dotdot then undomount mnt nc cname else nc
      some { nc.clone with name := cname }

def exisroot (s : St) (c : Chan) : Bool := eqchan s.root c

def St.setFid (s : St) (fid : UInt32) (c : Option Chan) : St := { s with fids := Function.update s.fids fid c }

def exmount (s : St) (c : Chan) : Chan :=
  if c.fd ≠ none then c
  else
    match findmount s.mnt c with
    | some m => { m.mount.target.clone with name := c.name }
    | none => c

def Exattach (s : St) (fid : UInt32) : Option Err × St :=
  if s.fids fid ≠ none then (some .Edupfid, s) else (none, s.setFid fid (some s.root.clone))

def Exclunk (s : St) (fid : UInt32) (luck : Luck) : Option Err × St :=
  match s.fids fid with
  | none => (some .Enofid, s)
  | some c => (none, { s.setFid fid none with host := fsclose s.host c luck })

/-- The loop of `Exwalk`; the channel it ends with, or how many names were walked before one failed. -/
def walkNames (s : St) (c : Chan) : List CStr → Nat → Except Nat Chan
  | [], _ => .ok c
  | name :: names, i =>
    if !exisroot s c ∨ (name.bytes ≠ [] ∧ name.bytes ≠ [dot, dot]) then
      match walk s.mnt s.host c name.bytes with
      | none => .error i
      | some c => walkNames s c names (i + 1)
    else walkNames s c names (i + 1)

def Exwalk (s : St) (fid newfid : UInt32) (wname : List CStr) : Option Err × St :=
  match s.fids fid with
  | none => (some .Enofid, s)
  | some c =>
    if c.fd ≠ none then (some .Eopen, s)
    else
      match walkNames s c.clone wname 0 with
      | .error i => (if i = 0 then some .errstr else none, s)
      | .ok c =>
        if newfid ≠ fid then
          if s.fids newfid ≠ none then (some .Edupfid, s) else (none, s.setFid newfid (some c))
        else (none, s.setFid fid (some c))

def Exopen (s : St) (fid : UInt32) (mode : UInt8) (luck : Luck) : Option Err × St :=
  match s.fids fid with
  | none => (some .Enofid, s)
  | some c =>
    if c.fd ≠ none then (some .Emode, s)
    else
      match fsopen s.host (exmount s c) mode luck with
      | none => (some .errstr, s)
      | some c => (none, s.setFid fid (some { c with rclose := c.rclose || mode &&& ORCLOSE ≠ 0 }))

/-- `createdir`: the first directory of the union in which files may be created. -/
def createdir (m : Mhead) : Option Chan := ((m.mount :: m.next).find? fun f => f.create).map fun f => f.target.clone

def Excreate (s : St) (fid : UInt32) (name : CStr) (perm : UInt32) (mode : UInt8) (luck : Luck) : Option Err × St :=
  match s.fids fid with
  | none => (some .Enofid, s)
  | some c =>
    if c.fd ≠ none then (some .Emode, s)
    else if !validname name.bytes then (some .Ebadchar, s)
    else if name.bytes = [dot] ∨ name.bytes = [dot, dot] then (some .Efilename, s)
    else
      let dc :=
        match findmount s.mnt c with
        | none => some c
        | some m => (createdir m).map fun d => { d with name := c.name }
      match dc with
      | none => (some .Enocreate, s)
      | some dc =>
        match fscreate s.host dc name.bytes mode perm luck with
        | (h, none) => (some .errstr, { s with host := h })
        | (h, some nc) => (none, { s with host := h }.setFid fid (some { nc with
            name := addelem nc.name name.bytes, rclose := nc.rclose || mode &&& ORCLOSE ≠ 0 }))

/-- The fid is gone also when the file could not be removed. -/
def Exremove (s : St) (fid : UInt32) (luck : Luck) : Option Err × St :=
  match s.fids fid with
  | none => (some .Enofid, s)
  | some c =>
    match fsremove s.host (exmount s c) luck with
    | none => (some .errstr, s.setFid fid none)
    | some h => (none, { s.setFid fid none with host := h })

def STATFIXLEN : Nat := BIT16SZ + QIDSZ + 5 * BIT16SZ + 4 * BIT32SZ + BIT64SZ

/-- The end of the `n` strings that start at `o`. -/
def statStrings (buf : Bytes) : Nat → Nat → Option Nat
  | 0, o => some o
  | n + 1, o =>
    if o + BIT16SZ > buf.length then none else statStrings buf n (o + BIT16SZ + (gbit16 (buf.drop o)).toNat)

def statcheck (buf : Bytes) : Bool :=
  STATFIXLEN ≤ buf.length && buf.length = BIT16SZ + (gbit16 buf).toNat &&
    statStrings buf 4 (STATFIXLEN - 4 * BIT16SZ) = some buf.length

/-- `d->name` of `convM2D`, up to a NUL. -/
def statName (buf : Bytes) : Bytes :=
  let o := STATFIXLEN - 4 * BIT16SZ
  ((buf.drop (o + BIT16SZ)).take (gbit16 (buf.drop o)).toNat).takeWhile (· ≠ 0)

/-- `validstat`, which leaves a long name to the device. -/
def validstat (buf : Bytes) : Bool :=
  statcheck buf && (64 ≤ (gbit16 (buf.drop (STATFIXLEN - 4 * BIT16SZ))).toNat || statName buf = [slash] ||
    validname (statName buf))

def Exwstat (s : St) (fid : UInt32) (stat : Bytes) (luck : Luck) : Option Err × St :=
  match s.fids fid with
  | none => (some .Enofid, s)
  | some c =>
    if !validstat stat then (some .Ebadstat, s)
    else
      match fswstat s.host (exmount s c) (statName stat) luck with
      | none => (some .errstr, s)
      | some (h, nc) =>
        -- the channel of a mount is not the fid's
        let mounted := c.fd = none ∧ (findmount s.mnt c).isSome
        (none, { s with host := h }.setFid fid (some (if mounted then c else nc)))

/-- A request and what the host decides about it. -/
structure Op where
  body : Body
  luck : Luck

def serve (s : St) (op : Op) : Option Err × St :=
  match op.body with
  | .Tattach fid _ _ _ => Exattach s fid
  | .Twalk fid newfid wname => Exwalk s fid newfid wname
  | .Topen fid mode => Exopen s fid mode op.luck
  | .Tcreate fid name perm mode => Excreate s fid name perm mode op.luck
  | .Tclunk fid => Exclunk s fid op.luck
  | .Tremove fid => Exremove s fid op.luck
  | .Twstat fid stat => Exwstat s fid stat op.luck
  -- the other requests leave the fids and the names as they are
  | _ => (none, s)

def step (s : St) (op : Op) : Option St := some (serve s op).2

end Node9.Export
