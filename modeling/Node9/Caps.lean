import Node9.Hmac
import Node9.Rune
import Node9.Lib.Steps

/-!
# Capabilities (`devcap.c`)

A write to `caphash` puts a hash on a list; a write of `user@key` or `user1@user2@key` to `capuse` takes from it
an entry that is the keyed hash of what is before the last `@`, and makes the writer that user. Processes write
in any order. A write to `capuse` is in two steps, since other processes go on when the lock is released: in
`Pending` are the writer's variables in between. `capwatch` drops old entries.

The keyed hash is compared also when `hmac_sha1` has not computed one, because the key is longer than 64 bytes or
there was no memory: what is compared is then what was in `digest` before.

`log` is the history, the latest event first. `History` is what it should be, `Secure` that it is and that the
parse buffer was not overrun.
-/

namespace Node9.Cap
open Buf Hmac Rune Steps

variable {P : Type} [DecidableEq P]

def Captimeout : Nat := 15
def Capidletime : Nat := 60

structure Caps where
  hash : Digest
  time : Nat

/-- The variables of `capwriteuse` after the entry was unlinked, and what was written. -/
structure Pending where
  written : Bytes
  buf : Bytes
  key : Bytes
  digest : Digest
  n : Nat
  users0 : Bytes
  users1 : Bytes

inductive Event (P : Type)
  /-- an entry of `caphash` -/
  | wrote (hash : Digest)
  /-- a write to `capuse` that made `p` the user `new` -/
  | granted (p : P) (written part key new : Bytes)
  | failed (p : P)

structure State (P : Type) where
  caps : List Caps
  kpstarted : Bool
  idletime : Nat
  /-- `up->env->user` of each process -/
  user : P → Bytes
  pending : List (P × Pending)
  overrun : Bool
  log : List (Event P)

/-- The bytes at the pointer of a write. -/
def bytesAt (a : Nat → UInt8) (len : Int32) : Bytes := (List.range len.toInt.toNat).map a

/-- `memmove(buf, a, len); buf[len] = 0;` for a `buf` of 128 bytes: the string in it. -/
def fill (a : Nat → UInt8) (len : Int32) : Option Bytes :=
  if 0 ≤ len.toInt ∧ len.toInt < 128 then some ((bytesAt a len).takeWhile (· ≠ 0)) else none

/-- The last place of `c`. -/
def strrchr (c : UInt8) : Bytes → Option Nat
  | [] => none
  | b :: s =>
    match strrchr c s with
    | some i => some (i + 1)
    | none => if b = c then some 0 else none

inductive Parse
  | fail
  | overrun
  | lookup (q : Pending)

/-- `capwriteuse` before the lock; `junk` is what is in `digest`, `mem` which allocations of the hash succeed. -/
def parse (a : Nat → UInt8) (len : Int32) (mem : Nat → Bool) (junk : Digest) : Parse :=
  if len.toInt64.toUInt64 ≥ 128 - 1 then .fail
  else
    match fill a len with
    | none => .overrun
    | some buf =>
      match strrchr at' buf with
      | none => .fail
      | some i =>
        let p := buf.drop (i + 1)
        let buf := buf.take i
        if p.length = 0 ∨ buf.length = 0 then .fail
        else
          let digest := (hmac_sha1 mem buf p).getD junk
          let f := getfields buf 3 false [at']
          let users1 := if f.narg = 1 then f.field 0 else f.field 1
          if f.narg ≠ 1 ∧ f.narg ≠ 2 then .fail
          else if f.field 0 = [] ∨ users1 = [] then .fail
          else .lookup ⟨bytesAt a len, buf, p, digest, f.narg, f.field 0, users1⟩

namespace State
variable (s : State P)

def fail (p : P) : State P := { s with log := .failed p :: s.log }

/-- `capwrite` on `Qhash`; `mem` says whether the entry is allocated. -/
def capwritehash (p : P) (a : Nat → UInt8) (n : Int64) (mem : Bool) : State P :=
  if n.toInt32.toInt ≠ SHA1dlen then s.fail p
  else if !mem then s.fail p
  else
    let hash : Digest := Vector.ofFn fun i => a i
    { s with
      caps := ⟨hash, 0⟩ :: s.caps
      kpstarted := true
      idletime := if s.kpstarted then s.idletime else 0
      log := .wrote hash :: s.log }

/-- Up to `qunlock`: the first entry with the digest is unlinked. -/
def capwriteuse (p : P) (a : Nat → UInt8) (n : Int64) (mem : Nat → Bool) (junk : Digest) : State P :=
  match parse a n.toInt32 mem junk with
  | .fail => s.fail p
  | .overrun => { s with overrun := true }
  | .lookup q =>
    if s.caps.any (·.hash == q.digest) then
      { s with caps := s.caps.eraseP (·.hash == q.digest), pending := (p, q) :: s.pending }
    else s.fail p

def setid (p : P) (name : Bytes) : State P := { s with user := Function.update s.user p name }

/-- From `free(c)` on. -/
def finish (p : P) (q : Pending) : State P :=
  let s := { s with pending := s.pending.eraseP (·.1 == p) }
  if q.n = 2 ∧ s.user p ≠ q.users0 then s.fail p
  else { s.setid p q.users1 with log := .granted p q.written q.buf q.key q.users1 :: s.log }

/-- A pass of `capwatch`. -/
def capwatch : State P :=
  let caps := s.caps.filterMap fun c => if c.time + 1 > Captimeout then none else some { c with time := c.time + 1 }
  if caps.isEmpty then
    if s.idletime + 1 > Capidletime then { s with caps, kpstarted := false, idletime := s.idletime + 1 }
    else { s with caps, idletime := s.idletime + 1 }
  else { s with caps, idletime := 0 }

end State

inductive Act (P : Type)
  | hash (p : P) (a : Nat → UInt8) (n : Int64) (mem : Bool)
  | use (p : P) (a : Nat → UInt8) (n : Int64) (mem : Nat → Bool) (junk : Digest)
  | finish (p : P)
  | watch

/-- A process is in one write at a time; nothing follows an overrun. -/
def step (s : State P) : Act P → Option (State P)
  | .hash p a n mem =>
    if s.overrun || s.pending.any (·.1 == p) then none else some (s.capwritehash p a n mem)
  | .use p a n mem junk =>
    if s.overrun || s.pending.any (·.1 == p) then none else some (s.capwriteuse p a n mem junk)
  | .finish p => (s.pending.find? (·.1 == p)).map fun e => s.finish p e.2
  | .watch => if s.kpstarted then some s.capwatch else none

def State.init (user : P → Bytes) : State P := ⟨[], false, 0, user, [], false, []⟩

/-! ### What should happen -/

/-- `written` up to its first null is the user part, `@` and the key. -/
def Splits (written part key : Bytes) : Prop :=
  written.takeWhile (· ≠ 0) = part ++ at' :: key ∧ at' ∉ key

/-- The user part names `new`, or the current user and `new`. -/
def Names (current part new : Bytes) : Prop :=
  (part = new ∧ at' ∉ new) ∨ (part = current ++ at' :: new ∧ at' ∉ current ∧ at' ∉ new)

/-- The entries for the hash `h`. -/
def writes (h : Digest) (log : List (Event P)) : Nat :=
  log.countP fun e => match e with
    | .wrote h' => h' == h
    | _ => false

/-- The changes of user for which the hash is `h`. -/
def uses (h : Digest) (log : List (Event P)) : Nat :=
  log.countP fun e => match e with
    | .granted _ _ part key _ => mac key part == h
    | _ => false

/-- The users after a history: they change when the keyed hash of the written user part had been written to
`caphash` and not yet been used, and only then. -/
inductive History (user : P → Bytes) : List (Event P) → (P → Bytes) → Prop
  | nil : History user [] user
  | wrote {log : List (Event P)} {u : P → Bytes} (h : Digest) : History user log u → History user (.wrote h :: log) u
  | failed {log : List (Event P)} {u : P → Bytes} (p : P) : History user log u → History user (.failed p :: log) u
  | granted {log : List (Event P)} {u : P → Bytes} {p : P} {written part key new : Bytes} :
      History user log u → Splits written part key → Names (u p) part new →
      uses (mac key part) log < writes (mac key part) log →
      History user (.granted p written part key new :: log) (Function.update u p new)

def Secure (user : P → Bytes) (s : State P) : Prop := s.overrun = false ∧ History user s.log s.user

/-- The key is at most a block long, and there is memory for the two states of the hash, if the write is one that comes
to `hmac_sha1`. -/
def Fits (_ : State P) : Act P → Prop
  | .use _ a n mem _ => (bytesAt a n.toInt32).length < 127 → ∀ part key, Splits (bytesAt a n.toInt32) part key →
      part ≠ [] → key ≠ [] → key.length ≤ 64 ∧ mem 0 = true ∧ mem 1 = true
  | _ => True

end Node9.Cap
