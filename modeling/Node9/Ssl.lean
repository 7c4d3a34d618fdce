import Node9.Lib.Buf
import Node9.Lib.Steps

/-!
# The input side of an SSL connection (`devssl.c`)

Blocks come in as the channel below gives them, and `sslbread` takes records from them: a header of two or three bytes
and a body. `in.q` lets in one reader at a time. One that is interrupted while it waits for more has the bytes of the
header in `count` only; it unlocks `in.q` and then puts them back.

A block is its bytes from `rp` to `wp`. What the state of the connection makes of a body (`decryptb`, `checkdigestb`) is
`secure`.
-/

namespace Node9.Ssl
open Buf List

/-- The bytes that are copied, and the list that is left. -/
def consume : List Bytes → Nat → Bytes × List Bytes
  | [], _ => ([], [])
  | b :: l, n =>
    if n = 0 then ([], b :: l)
    else if n < b.length then (b.take n, b.drop n :: l)
    else
      let r := consume l (n - b.length)
      (b ++ r.1, r.2)

/-- What is taken, and what is left; nothing with `discard`. A negative count ends in a panic. -/
def qtake (discard : Bool) : List Bytes → Int → Option (List Bytes × List Bytes)
  | [], _ => some ([], [])
  | b :: l, n =>
    if b.length = n then some ([b], if discard then [] else l)
    else if n < b.length then
      if n < 0 then none else some ([b.take n.toNat], if discard then [] else b.drop n.toNat :: l)
    else (qtake discard l (n - b.length)).map fun r => (b :: r.1, r.2)

/-- The length in the first two bytes of a header. -/
def msgLen (a b : UInt8) : Nat :=
  if a &&& 0x80 ≠ 0 then (a &&& 0x7f).toNat * 256 + b.toNat else (a &&& 0x3f).toNat * 256 + b.toNat

/-- A record, and what the readers are given of it. -/
structure Record where
  count : Bytes
  body : Bytes
  payload : Bytes

/-- Where a reader of `n` bytes is in `sslbread`: at the lock, behind it, in the first and in the second `ensure`, and
in its handler. -/
inductive Reader
  | free
  | lock (n : Nat)
  | start (n : Nat)
  | header (n : Nat)
  | body (n : Nat) (a b : UInt8)
  | raised (count : Bytes) (interrupted : Bool)

def Reader.holds : Reader → Bool
  | .start _ => true
  | .header _ => true
  | .body _ _ _ => true
  | _ => false

/-- The header bytes that are in `count` and nowhere else. -/
def Reader.count : Reader → Bytes
  | .body _ a b => [a, b]
  | .raised count _ => count
  | _ => []

/-- `failed` says that a read has raised another error than an interruption, so that the connection is hung up. -/
structure St where
  q : Option Nat
  unprocessed : List Bytes
  processed : List Bytes
  reader : Nat → Reader
  received : Bytes
  records : List Record
  delivered : Bytes
  failed : Bool

inductive Act
  | read (p n : Nat)
  | lock (p : Nat)
  | look (p : Nat)
  | recv (p : Nat) (bl : List Bytes)
  | interrupt (p : Nat)
  | hungup (p : Nat)
  | header (p : Nat)
  | record (p : Nat)
  | handle (p : Nat)

namespace St

def go (s : St) (p : Nat) (r : Reader) : St := { s with reader := Function.update s.reader p r }

/-- To the handler, which unlocks `in.q` first. -/
def raise (s : St) (p : Nat) (count : Bytes) (interrupted : Bool) : St :=
  { s.go p (.raised count interrupted) with q := none, failed := s.failed || !interrupted }

/-- Return at most what was asked for. -/
def deliver (s : St) (p n : Nat) : Option St :=
  (qtake false s.processed n).map fun r =>
    { s.go p .free with q := none, processed := r.2, delivered := s.delivered ++ r.1.flatten }

end St

/-- The bytes behind the first two that `ensure` waits for. -/
def need (a b : UInt8) : Nat := if a &&& 0x80 ≠ 0 then msgLen a b else msgLen a b + 1

/-- Whether the reader is in an `ensure` that waits for more. -/
def Reader.waits (unprocessed : List Bytes) : Reader → Bool
  | .header _ => unprocessed.flatten.length < 2
  | .body _ a b => unprocessed.flatten.length < need a b
  | _ => false

/-- `secure mid len blocks` gives the blocks and the length, or raises an error. -/
abbrev Secure := Nat → Nat → List Bytes → Option (List Bytes × Int)

/-- From the pad on, with the whole record there. -/
def takeRecord (secure : Secure) (s : St) (p n : Nat) (a b : UInt8) : Option St :=
  let long := a &&& 0x80 ≠ 0
  let r := if long then ([], s.unprocessed) else consume s.unprocessed 1
  let pad := r.1.headD 0
  let s := { s with unprocessed := r.2 }
  let count := [a, b] ++ r.1
  if msgLen a b < pad.toNat then some (s.raise p count false)
  else
    (qtake false s.unprocessed (msgLen a b)).bind fun body =>
      let s := { s with unprocessed := body.2, processed := body.1 }
      match secure s.records.length (msgLen a b) body.1 with
      | none => some (s.raise p [] false)
      | some (bs, len) =>
        (if pad = 0 then some bs else (qtake true bs (len - pad.toNat)).map Prod.fst).bind fun bs =>
          let s : St := { s with processed := bs, records := s.records ++ [⟨count, body.1.flatten, bs.flatten⟩] }
          s.deliver p n

def step (secure : Secure) (s : St) : Act → Option St
  | .read p n =>
    match s.reader p with
    | .free => some (s.go p (.lock n))
    | _ => none
  | .lock p =>
    match s.reader p with
    | .lock n => if s.q = none then some { s.go p (.start n) with q := some p } else none
    | _ => none
  | .look p =>
    match s.reader p with
    | .start n => if s.processed = [] then some (s.go p (.header n)) else s.deliver p n
    | _ => none
  -- a header put back since `ensure` began is kept; in the source its pointer to the end of the list may go over it
  | .recv p bl =>
    if (s.reader p).waits s.unprocessed ∧ 0 < bl.flatten.length then
      some { s with unprocessed := s.unprocessed ++ bl, received := s.received ++ bl.flatten }
    else none
  | .interrupt p => if (s.reader p).waits s.unprocessed then some (s.raise p (s.reader p).count true) else none
  | .hungup p => if (s.reader p).waits s.unprocessed then some (s.raise p (s.reader p).count false) else none
  | .header p =>
    match s.reader p with
    | .header n =>
      let r := consume s.unprocessed 2
      match r.1 with
      | [a, b] => some ({ s with unprocessed := r.2 }.go p (.body n a b))
      | _ => none
    | _ => none
  | .record p =>
    match s.reader p with
    | .body n a b => if (s.reader p).waits s.unprocessed then none else takeRecord secure s p n a b
    | _ => none
  | .handle p =>
    match s.reader p with
    | .raised count true =>
      let s := s.go p .free
      some (if count = [] then s else { s with unprocessed := count :: s.unprocessed })
    | .raised _ false => if s.q = none then some { s.go p .free with unprocessed := [], processed := [] } else none
    | _ => none

def St.init : St := ⟨none, [], [], fun _ => .free, [], [], [], false⟩

theorem consume_spec (l : List Bytes) (n : Nat) :
    (consume l n).1 = l.flatten.take n ∧ (consume l n).2.flatten = l.flatten.drop n := by
  induction l generalizing n with
  | nil => exact ⟨take_nil.symm, drop_nil.symm⟩
  | cons b l ih =>
    rw [consume, flatten_cons, take_append, drop_append]
    split
    next h =>
      rw [h, Nat.zero_sub]
      exact ⟨rfl, rfl⟩
    next =>
      split
      next hlt =>
        rw [Nat.sub_eq_zero_of_le hlt.le, take_zero, drop_zero, append_nil]
        exact ⟨rfl, rfl⟩
      next hle =>
        obtain ⟨h₁, h₂⟩ := ih (n - b.length)
        rw [take_of_length_le (not_lt.1 hle), drop_of_length_le (not_lt.1 hle), nil_append]
        exact ⟨congrArg (b ++ ·) h₁, h₂⟩

theorem qtake_spec (discard : Bool) (l : List Bytes) (n : Nat) : ∃ r, qtake discard l n = some r ∧
    r.1.flatten = l.flatten.take n ∧ r.2.flatten = if discard then [] else l.flatten.drop n := by
  induction l generalizing n with
  | nil => exact ⟨([], []), rfl, take_nil.symm, by rw [flatten_nil, drop_nil, ite_self]⟩
  | cons b l ih =>
    rw [qtake, flatten_cons, take_append, drop_append]
    by_cases heq : b.length = n
    · rw [if_pos (by exact_mod_cast heq)]
      refine ⟨_, rfl, ?_, ?_⟩
      · rw [heq, tsub_self, take_zero, append_nil, take_of_length_le heq.le, flatten_singleton]
      · rw [heq, tsub_self, drop_zero, drop_of_length_le heq.le, nil_append]
        split <;> rfl
    rw [if_neg (by exact_mod_cast heq)]
    by_cases hlt : n < b.length
    · rw [if_pos (by exact_mod_cast hlt), if_neg (by omega), Int.toNat_natCast]
      refine ⟨_, rfl, ?_, ?_⟩
      · rw [Nat.sub_eq_zero_of_le hlt.le, take_zero, append_nil, flatten_singleton]
      · rw [Nat.sub_eq_zero_of_le hlt.le, drop_zero]
        split <;> rfl
    rw [if_neg (by exact_mod_cast hlt)]
    obtain ⟨r, hr, h₁, h₂⟩ := ih (n - b.length)
    have hsub : (n : Int) - b.length = (n - b.length : Nat) := by omega
    rw [hsub, hr]
    refine ⟨_, rfl, ?_, ?_⟩
    · rw [flatten_cons, h₁, take_of_length_le (not_lt.1 hlt)]
    · rw [h₂, drop_of_length_le (not_lt.1 hlt), nil_append]

end Node9.Ssl
