import Node9.QioWrite

/-!
# The counters of a queue (`qio.c`)

Each operation of a queue keeps `len`, `dlen` and `blast` up to date by hand. Here `blast` is the pointer that it is:
what is added goes behind the block that it points to, and an operation faults if that is no block of the list. It
also faults on a nil list where the source follows the pointer. `len` and `dlen` are `int`s.

An operation that sleeps ends there. A read or `qbread` that was woken begins again, and nothing that a write does
after its sleep changes the list or the counters. `qwrite` and `qiwrite` are one turn of their loops, at `sofar`. The
wake-ups themselves do nothing to the queue. A negative length makes `memmove` go beyond the block, except in
`qdiscard` and `pullupqueue`.
-/

namespace Node9.Qio
open Buf List

/-- The size of all blocks together, used or not. -/
def alloc (bp : List Block) : Nat := (bp.map Block.BALLOC).sum

structure Fifo extends Queue where
  blast : Option Nat
  eof : Nat
  err : Bytes

/-- With `Qcoalesce`. -/
structure Mode extends Kind where
  coalesce : Bool

def Ehungup : Bytes := "i/o on hungup channel".toList.map fun x => UInt8.ofNat x.toNat

inductive Got (α : Type)
  | data (a : α)
  | eof
  | error
  | asleep

/-- The blocks up to the one at `a`. -/
def upto (a : Nat) : List Block → Option (List Block)
  | [] => none
  | b :: bs => if b.addr = a then some [b] else (upto a bs).map (b :: ·)

/-- The bytes that are copied, and the blocks that were not emptied. -/
def bl2mem : List Block → Nat → Bytes × List Block
  | [], _ => ([], [])
  | b :: next, n =>
    if n < b.BLEN then (b.data.take n, b.skip n :: next)
    else
      let r := bl2mem next (n - b.BLEN)
      (b.data ++ r.1, r.2)

namespace Fifo

/-- `bs` behind `blast`, or as the list if there is none. -/
def append (q : Fifo) (bs : List Block) : Option Fifo := do
  let bfirst ← if q.bfirst.isEmpty then some bs else q.blast.bind fun a => (upto a q.bfirst).map (· ++ bs)
  some { q with
    bfirst := bfirst, blast := last bs, len := int (q.len + alloc bs), dlen := int (q.dlen + total bs) }

def pop (q : Fifo) (b : Block) (rest : List Block) : Fifo :=
  { q with bfirst := rest, len := int (q.len - b.BALLOC), dlen := int (q.dlen - b.BLEN) }

/-- `q->limit/2` -/
def half (q : Fifo) : Int := q.limit.tdiv 2

/-- A writer that is flow controlled goes on below `bound`. -/
def restart (q : Fifo) (bound : Int) : Fifo := if q.flow ∧ q.len < bound then { q with flow := false } else q

/-- From `bound` on the writers are flow controlled. -/
def flows (q : Fifo) (bound : Int) : Fifo := if bound ≤ q.len then { q with flow := true } else q

def fed (q : Fifo) : Fifo := { q with starve := false }

def starved (q : Fifo) : Fifo := { q with starve := true }

def qget (q : Fifo) : Option Block × Fifo :=
  match q.bfirst with
  | [] => (none, q.starved)
  | b :: rest =>
    let q := q.pop b rest
    (some b, q.restart q.half)

def discardLoop (len : Int) (q : Fifo) (sofar : Int) : List Block → Int × Fifo
  | [] => (sofar, q)
  | b :: rest =>
    if sofar < len then
      let n : Int := b.BLEN
      if n ≤ len - sofar then discardLoop len (q.pop b rest) (sofar + n) rest
      else
        let n := len - sofar
        (sofar + n, { q with bfirst := b.skip n.toNat :: rest, dlen := int (q.dlen - n) })
    else (sofar, q)

def qdiscard (len : Int) (q : Fifo) : Int × Fifo :=
  let r := discardLoop len q 0 q.bfirst
  (r.1, r.2.restart r.2.limit)

/-- The empty blocks at the front, of which only `len` is taken off. -/
def skipEmpty (q : Fifo) : List Block → Fifo
  | [] => q
  | b :: rest => if 0 < b.BLEN then q else skipEmpty { q with bfirst := rest, len := int (q.len - b.BALLOC) } rest

/-- `none` is -1. -/
def qconsume (k : Kind) (len : Nat) (q : Fifo) : Option Bytes × Fifo :=
  let q := skipEmpty q q.bfirst
  match q.bfirst with
  | [] => (none, q.starved)
  | b :: rest =>
    let n := b.BLEN
    let len := if n < len then n else len
    let c := b.skip len
    let q := { q with dlen := int (q.dlen - len) }
    let q := if k.msg || len = n then q.pop c rest else { q with bfirst := c :: rest }
    (some (b.data.take len), q.restart q.half)

def qremove (q : Fifo) : Option Block × Fifo :=
  match q.bfirst with
  | [] => (none, q)
  | b :: rest => (some b, q.pop b rest)

def qputback (b : Block) (q : Fifo) : Fifo :=
  { q with
    bfirst := b :: q.bfirst
    blast := if q.bfirst.isEmpty then some b.addr else q.blast
    len := int (q.len + b.BALLOC)
    dlen := int (q.dlen + b.BLEN) }

/-- Also the heap, for the block that is put in front. -/
def pullupqueue (n : Int) (h : Heap) (q : Fifo) : Option (List Block × Fifo × Heap) :=
  (Qio.pullupqueue ⟨q.bfirst, q.blast⟩ n h).map fun r =>
    (r.1.1, { q with bfirst := r.1.2.bfirst, blast := r.1.2.blast }, r.2)

/-- `qwait` of a queue without blocks, and what the callers make of its result. -/
def qwait {α : Type} (q : Fifo) : Got α × Fifo :=
  if q.closed then
    let q := { q with eof := q.eof + 1 }
    (if 3 < q.eof ∨ (q.err ≠ [] ∧ q.err ≠ Ehungup) then .error else .eof, q)
  else (.asleep, q.starved)

/-- The rest of a block that is too big is copied to the new block at `block`, if that is not nil. -/
def qbread (k : Kind) (len : Nat) (block : Option Nat) (q : Fifo) : Got Block × Fifo :=
  match q.bfirst with
  | [] => q.qwait
  | b :: rest =>
    let q := q.pop b rest
    if len < b.BLEN then
      let nb := { b with data := b.data.take len, room := b.room + (b.BLEN - len) }
      if k.msg then (.data nb, q.restart q.half)
      else
        match block with
        | none => (.error, q)
        | some addr =>
          let q := qputback ⟨addr, 0, b.data.drop len, 0⟩ q
          (.data nb, q.restart q.half)
    else (.data b, q.restart q.half)

/-- When coalescing, 0 length blocks just go away. -/
def goAway (q : Fifo) : List Block → Fifo
  | [] => q
  | b :: rest => if b.BLEN = 0 then goAway (q.pop b rest) rest else q

/-- As many blocks as will completely fit in a read of `len`, of which `n` are used. -/
def grab (len n : Nat) (q : Fifo) : List Block → List Block × Fifo
  | [] => ([], q)
  | b :: rest =>
    if len < n + b.BLEN then ([], q)
    else
      let r := grab len (n + b.BLEN) (q.pop b rest) rest
      (b :: r.1, r.2)

/-- The first block, and what is grabbed behind it. -/
def first (m : Mode) (len : Nat) (b : Block) (rest : List Block) (q : Fifo) : List Block × Fifo :=
  if m.coalesce then
    let r := grab len b.BLEN (q.pop b rest) rest
    (b :: r.1, r.2)
  else ([b], q.pop b rest)

/-- What is left over of the last block. -/
def leftover (k : Kind) (q : Fifo) : List Block → Fifo
  | [] => q
  | b :: _ => if k.msg then q else qputback b q

/-- `qread` up to the copy, with what is copied and what was not. -/
def taken (m : Mode) (len : Nat) (q : Fifo) : Got (Bytes × List Block) × Fifo :=
  let q := if m.coalesce then goAway q q.bfirst else q
  match q.bfirst with
  | [] => q.qwait
  | b :: rest =>
    let t := first m len b rest q
    (.data (bl2mem t.1 len), t.2)

/-- `qread` from the copy on. -/
def putback (k : Kind) (bs : List Block) (q : Fifo) : Fifo :=
  let q := leftover k q bs
  q.restart q.half

def qread (m : Mode) (len : Nat) (q : Fifo) : Got Bytes × Fifo :=
  let t := q.taken m len
  match t.1 with
  | .data r => (.data r.1, t.2.putback m.toKind r.2)
  | .eof => (.eof, t.2)
  | .error => (.error, t.2)
  | .asleep => (.asleep, t.2)

def qpass (bs : List Block) (q : Fifo) : Option (Int × Fifo) :=
  if q.limit ≤ q.len then some (-1, q)
  else if q.closed then some (blocklen bs, q)
  else
    match bs with
    | [] => none
    | _ :: _ => (q.append bs).map fun q => (int (alloc bs), (q.flows q.half).fed)

def qpassnolim (bs : List Block) (q : Fifo) : Option (Int × Fifo) :=
  match bs with
  | [] => none
  | b :: _ =>
    if q.closed then some (int b.BALLOC, q)
    else (q.append bs).map fun q => (int (alloc bs), (q.flows q.half).fed)

/-- `block` is the address of the new block, or nil. -/
def qproduce (block : Option Nat) (p : Bytes) (q : Fifo) : Option (Int × Fifo) :=
  if q.closed then some (-1, q)
  else if q.limit ≤ q.len then some (-1, { q with flow := true })
  else
    match block with
    | none => some (-1, q)
    | some addr => (q.append [⟨addr, 0, p, 0⟩]).map fun q => (p.length, q.fed.flows q.limit)

def qaddlist (bs : List Block) (q : Fifo) : Option Fifo :=
  match bs with
  | [] => none
  | _ :: _ => q.append bs

def qbwrite (k : Kind) (b : Block) (q : Fifo) : Option (Out × Fifo) :=
  if k.bypass then some (.returned, q)
  else if q.closed then some (.error, q)
  else if q.drops then some (.returned, q)
  else
    (q.append [b]).map fun q =>
      let r := flowControl q.fed.toQueue []
      (r.1, { q with toQueue := r.2 })

def qwrite (k : Kind) (p : Bytes) (len sofar : Int) (block : Option Nat) (q : Fifo) : Option (Out × Fifo) :=
  match block with
  | none => some (.error, q)
  | some addr =>
    if pieceSize Maxatomic len sofar < 0 then none else qbwrite k (piece Maxatomic p len sofar addr) q

def qiwrite (p : Bytes) (len sofar : Int) (block : Option Nat) (q : Fifo) : Option Fifo :=
  match block with
  | none => some q
  | some addr =>
    if pieceSize Maxatomic len sofar < 0 then none
    else (q.append [piece Maxatomic p len sofar addr]).map Fifo.fed

def qclose (q : Fifo) : Fifo :=
  { q with
    closed := true, flow := false, starve := false, err := Ehungup, bfirst := [], len := 0, dlen := 0, noblock :=
      false }

def qflush (q : Fifo) : Fifo := { q with bfirst := [], len := 0, dlen := 0 }

end Fifo

/-! ### What holds of the counters -/

/-- `len` and `dlen` are the sums, as an `int` has them. -/
structure Accounted (q : Fifo) : Prop where
  len : q.len = int (alloc q.bfirst)
  dlen : q.dlen = int (total q.bfirst)
  blast : q.bfirst ≠ [] → q.blast = last q.bfirst

/-- And no block is on the list twice. -/
structure Sound (q : Fifo) : Prop extends Accounted q where
  nodup : (addrs q.bfirst).Nodup

section Lists
variable {b : Block} {bp bs : List Block}

@[simp] theorem alloc_nil : alloc [] = 0 := rfl

@[simp] theorem alloc_cons : alloc (b :: bp) = b.BALLOC + alloc bp := rfl

@[simp] theorem alloc_append : alloc (bp ++ bs) = alloc bp + alloc bs := by
  simp [alloc]

@[simp] theorem addrs_cons : addrs (b :: bp) = b.addr :: addrs bp := rfl

@[simp] theorem addrs_append : addrs (bp ++ bs) = addrs bp ++ addrs bs := map_append

@[simp] theorem last_append (hbs : bs ≠ []) : last (bp ++ bs) = last bs := by
  rw [last, List.getLast?_append_of_ne_nil bp hbs, last]

theorem last_cons (hbp : bp ≠ []) : last (b :: bp) = last bp := @last_append [b] bp hbp

theorem total_le_alloc : total bp ≤ alloc bp := by
  induction bp with
  | nil => exact le_rfl
  | cons b bp ih =>
    rw [total_cons, alloc_cons]
    simp only [Block.BLEN, Block.BALLOC]
    omega

theorem BALLOC_skip {n : Nat} (hn : n ≤ b.BLEN) : (b.skip n).BALLOC = b.BALLOC := by
  simp only [Block.BALLOC, Block.skip, Block.BLEN, length_drop] at *
  omega

theorem BLEN_skip (n : Nat) : (b.skip n).BLEN = b.BLEN - n := length_drop ..

theorem upto_last (hbp : bp ≠ []) (hn : (addrs bp).Nodup) : ∃ a, last bp = some a ∧ upto a bp = some bp := by
  induction bp with
  | nil => exact absurd rfl hbp
  | cons b bp ih =>
    cases bp with
    | nil => exact ⟨b.addr, rfl, if_pos rfl⟩
    | cons c bp =>
      obtain ⟨a, ha, hup⟩ := ih (cons_ne_nil _ _) (nodup_cons.1 hn).2
      refine ⟨a, (last_cons (cons_ne_nil _ _)).trans ha, ?_⟩
      have hmem : a ∈ addrs (c :: bp) := by
        obtain ⟨d, hd, rfl⟩ := Option.map_eq_some_iff.1 ha
        exact mem_map_of_mem (mem_of_getLast? hd)
      rw [upto, if_neg (fun he : b.addr = a => (nodup_cons.1 hn).1 (he ▸ hmem)), hup]
      rfl

end Lists

theorem int_int_add (x y : Int) : int (int x + y) = int (x + y) := Int.bmod_add_bmod

theorem int_int_sub (x y : Int) : int (int x - y) = int (x - y) := Int.bmod_sub_bmod

theorem int_add_left_inj {x y z : Int} : int (x + y) = int (x + z) ↔ int y = int z := Int.bmod_add_cancel_left x

namespace Sound
variable {q q' : Fifo} {b c : Block} {rest bs : List Block}

section
variable (h : Sound q)
include h

theorem congr (hb : q'.bfirst = q.bfirst) (hl : q'.blast = q.blast) (hlen : q'.len = q.len)
    (hdlen : q'.dlen = q.dlen) : Sound q' := by
  refine ⟨⟨?_, ?_, ?_⟩, ?_⟩
  · rw [hlen, hb, h.len]
  · rw [hdlen, hb, h.dlen]
  · rw [hl, hb]
    exact h.blast
  · rw [hb]
    exact h.nodup

theorem starved : Sound q.starved := h.congr rfl rfl rfl rfl

theorem fed : Sound q.fed := h.congr rfl rfl rfl rfl

theorem restart (bound : Int) : Sound (q.restart bound) := by
  unfold Fifo.restart
  split
  · exact h.congr rfl rfl rfl rfl
  · exact h

theorem flows (bound : Int) : Sound (q.flows bound) := by
  unfold Fifo.flows
  split
  · exact h.congr rfl rfl rfl rfl
  · exact h

theorem tail (hq : q.bfirst = b :: rest) (hb : q'.bfirst = rest) (hl : q'.blast = q.blast)
    (hlen : q'.len = int (q.len - b.BALLOC)) (hdlen : q'.dlen = int (q.dlen - b.BLEN)) : Sound q' := by
  have hnd := h.nodup
  rw [hq, addrs_cons, nodup_cons] at hnd
  refine ⟨⟨?_, ?_, fun hne => ?_⟩, ?_⟩
  · rw [hlen, hb, h.len, hq, alloc_cons, int_int_sub]
    congr 1
    omega
  · rw [hdlen, hb, h.dlen, hq, total_cons, int_int_sub]
    congr 1
    omega
  · rw [hl, h.blast (by rw [hq]; exact cons_ne_nil _ _), hq, hb, last_cons (hb ▸ hne)]
  · rw [hb]
    exact hnd.2

theorem pop (hq : q.bfirst = b :: rest) : Sound (q.pop b rest) := h.tail hq rfl rfl rfl rfl

theorem front {n : Nat} (hq : q.bfirst = b :: rest) (hn : n ≤ b.BLEN) (hb : q'.bfirst = b.skip n :: rest)
    (hl : q'.blast = q.blast) (hlen : q'.len = q.len) (hdlen : q'.dlen = int (q.dlen - n)) : Sound q' := by
  have hnd := h.nodup
  rw [hq] at hnd
  refine ⟨⟨?_, ?_, fun _ => ?_⟩, ?_⟩
  · rw [hlen, hb, h.len, hq, alloc_cons, alloc_cons, BALLOC_skip hn]
  · rw [hdlen, hb, h.dlen, hq, total_cons, total_cons, BLEN_skip, int_int_sub]
    congr 1
    omega
  · rw [hl, h.blast (by rw [hq]; exact cons_ne_nil _ _), hq, hb]
    cases rest with
    | nil => rfl
    | cons c rest => rw [last_cons (cons_ne_nil _ _), last_cons (cons_ne_nil _ _)]
  · rw [hb]
    exact hnd

theorem qputback (hb : b.addr ∉ addrs q.bfirst) : Sound (q.qputback b) := by
  refine ⟨⟨?_, ?_, fun _ => ?_⟩, nodup_cons.2 ⟨hb, h.nodup⟩⟩
  · show int (q.len + b.BALLOC) = _
    rw [h.len, int_int_add]
    show _ = int ((b.BALLOC + alloc q.bfirst : Nat) : Int)
    rw [Nat.cast_add, add_comm]
  · show int (q.dlen + b.BLEN) = _
    rw [h.dlen, int_int_add]
    show _ = int ((total (b :: q.bfirst) : Nat) : Int)
    rw [total_cons, Nat.cast_add, add_comm]
  · show (if q.bfirst.isEmpty then some b.addr else q.blast) = last (b :: q.bfirst)
    cases hq : q.bfirst with
    | nil => rfl
    | cons c rest =>
      rw [last_cons (cons_ne_nil _ _), ← hq, ← h.blast (by rw [hq]; exact cons_ne_nil _ _), hq]
      rfl

theorem append (hbs : bs ≠ []) (hn : (addrs bs).Nodup) (hd : ∀ a ∈ addrs bs, a ∉ addrs q.bfirst) :
    ∃ q', q.append bs = some q' ∧ Sound q' ∧ q' = { q with
      bfirst := q.bfirst ++ bs, blast := last bs, len := int (q.len + alloc bs), dlen := int (q.dlen + total bs) } := by
  have happ : q.append bs = some { q with
      bfirst := q.bfirst ++ bs, blast := last bs, len := int (q.len + alloc bs), dlen := int (q.dlen + total bs) } := by
    unfold Fifo.append
    cases hq : q.bfirst with
    | nil => rfl
    | cons b rest =>
      obtain ⟨a, ha, hup⟩ := upto_last (cons_ne_nil b rest) (hq ▸ h.nodup)
      rw [h.blast (by rw [hq]; exact cons_ne_nil _ _), hq, ha]
      show ((upto a (b :: rest)).map (· ++ bs)).bind _ = _
      rw [hup]
      rfl
  refine ⟨_, happ, ⟨⟨?_, ?_, fun _ => (last_append hbs).symm⟩, ?_⟩, rfl⟩
  · show int (q.len + alloc bs) = int ((alloc (q.bfirst ++ bs) : Nat) : Int)
    rw [h.len, int_int_add, alloc_append, Nat.cast_add]
  · show int (q.dlen + total bs) = int ((total (q.bfirst ++ bs) : Nat) : Int)
    rw [h.dlen, int_int_add, total_append, Nat.cast_add]
  · show (addrs (q.bfirst ++ bs)).Nodup
    rw [addrs_append, nodup_append]
    refine ⟨h.nodup, hn, fun a ha b hb hab => ?_⟩
    exact hd b hb (hab ▸ ha)

end

end Sound

theorem int_int (x : Int) : int (int x) = int x := by
  have h := int_int_add x 0
  rwa [Int.add_zero, Int.add_zero] at h

namespace Sound
variable {q : Fifo} {bp : List Block} (h : Sound q)
include h

theorem qget : Sound q.qget.2 := by
  unfold Fifo.qget
  split
  case h_1 => exact h.starved
  case h_2 b rest hq => exact (h.pop hq).restart _

omit h in
theorem discardLoop (h : Sound q) (hq : q.bfirst = bp) (len sofar : Int) :
    Sound (Fifo.discardLoop len q sofar bp).2 := by
  induction bp generalizing q sofar with
  | nil => exact h
  | cons b rest ih =>
    unfold Fifo.discardLoop
    by_cases hlt : sofar < len
    · rw [if_pos hlt]
      by_cases hle : (b.BLEN : Int) ≤ len - sofar
      · simp only [if_pos hle]
        exact ih (h.pop hq) rfl _
      · simp only [if_neg hle]
        refine h.front hq (n := (len - sofar).toNat) (by omega) rfl rfl rfl ?_
        rw [Int.toNat_of_nonneg (by omega)]
    · rw [if_neg hlt]
      exact h

theorem qdiscard (len : Int) : Sound (q.qdiscard len).2 := (h.discardLoop rfl len 0).restart _

omit h in
theorem skipEmpty (h : Sound q) (hq : q.bfirst = bp) : Sound (Fifo.skipEmpty q bp) := by
  induction bp generalizing q with
  | nil => exact h
  | cons b rest ih =>
    unfold Fifo.skipEmpty
    by_cases hpos : 0 < b.BLEN
    · rw [if_pos hpos]
      exact h
    · rw [if_neg hpos]
      refine ih (h.tail hq rfl rfl rfl ?_) rfl
      rw [Nat.eq_zero_of_not_pos hpos, Nat.cast_zero, Int.sub_zero, h.dlen, int_int]

theorem qconsume (k : Kind) (len : Nat) : Sound (q.qconsume k len).2 := by
  have hs := h.skipEmpty rfl
  unfold Fifo.qconsume
  dsimp only
  generalize Fifo.skipEmpty q q.bfirst = q₁ at hs
  split
  case h_1 => exact hs.starved
  case h_2 b rest hq =>
    have hle : (if b.BLEN < len then b.BLEN else len) ≤ b.BLEN := by
      split <;> omega
    generalize (if b.BLEN < len then b.BLEN else len) = n at hle
    have hfront : Sound { q₁ with bfirst := b.skip n :: rest, dlen := int (q₁.dlen - n) } :=
      hs.front hq hle rfl rfl rfl rfl
    refine Sound.restart ?_ _
    split
    · exact hfront.pop rfl
    · exact hfront

theorem qremove : Sound q.qremove.2 := by
  unfold Fifo.qremove
  split
  case h_1 => exact h
  case h_2 b rest hq => exact h.pop hq

theorem qwait {α : Type} : Sound (Fifo.qwait (α := α) q).2 := by
  unfold Fifo.qwait
  split
  · exact h.congr rfl rfl rfl rfl
  · exact h.starved

theorem qbread (k : Kind) (len : Nat) {block : Option Nat} (hb : ∀ a ∈ block.toList, a ∉ addrs q.bfirst) :
    Sound (q.qbread k len block).2 := by
  unfold Fifo.qbread
  split
  case h_1 => exact h.qwait
  case h_2 b rest hq =>
    have hpop := h.pop hq
    by_cases hlt : len < b.BLEN
    · simp only [if_pos hlt]
      split
      · exact hpop.restart _
      cases block with
      | none => exact hpop
      | some addr =>
        have hnot := hb addr (mem_singleton_self addr)
        rw [hq, addrs_cons, mem_cons, not_or] at hnot
        exact (hpop.qputback hnot.2).restart _
    · simp only [if_neg hlt]
      exact hpop.restart _

omit h in
theorem goAway (h : Sound q) (hq : q.bfirst = bp) : Sound (Fifo.goAway q bp) := by
  induction bp generalizing q with
  | nil => exact h
  | cons b rest ih =>
    unfold Fifo.goAway
    split
    · exact ih (h.pop hq) rfl
    · exact h

end Sound

theorem grab_spec {q : Fifo} {bp : List Block} (h : Sound q) (hq : q.bfirst = bp) (len n : Nat) :
    Sound (Fifo.grab len n q bp).2 ∧ (Fifo.grab len n q bp).1 ++ (Fifo.grab len n q bp).2.bfirst = bp := by
  induction bp generalizing q n with
  | nil => exact ⟨h, hq⟩
  | cons b rest ih =>
    unfold Fifo.grab
    split
    · exact ⟨h, hq⟩
    · obtain ⟨hs, happ⟩ := ih (h.pop hq) rfl (n + b.BLEN)
      exact ⟨hs, congrArg (b :: ·) happ⟩

theorem first_spec {q : Fifo} {b : Block} {rest : List Block} (h : Sound q) (hq : q.bfirst = b :: rest) (m : Mode)
    (len : Nat) :
    Sound (q.first m len b rest).2 ∧ (q.first m len b rest).1 ++ (q.first m len b rest).2.bfirst = b :: rest := by
  unfold Fifo.first
  split
  · obtain ⟨hs, happ⟩ := grab_spec (h.pop hq) rfl len b.BLEN
    exact ⟨hs, congrArg (b :: ·) happ⟩
  · exact ⟨h.pop hq, rfl⟩

theorem addr_bl2mem {bp : List Block} {n : Nat} {c : Block} (hc : c ∈ (bl2mem bp n).2) : c.addr ∈ addrs bp := by
  induction bp generalizing n with
  | nil => cases hc
  | cons b next ih =>
    unfold bl2mem at hc
    split at hc
    · rcases mem_cons.1 hc with rfl | hc
      · exact mem_cons_self ..
      · exact mem_cons_of_mem _ (mem_map_of_mem hc)
    · exact mem_cons_of_mem _ (ih hc)

namespace Sound
variable {q : Fifo} {bs : List Block} (h : Sound q)
include h

theorem leftover (k : Kind) (hbs : ∀ c ∈ bs, c.addr ∉ addrs q.bfirst) : Sound (q.leftover k bs) := by
  cases bs with
  | nil => exact h
  | cons b bs =>
    dsimp only [Fifo.leftover]
    split
    · exact h
    · exact h.qputback (hbs b (mem_cons_self ..))

theorem putback (k : Kind) (hbs : ∀ c ∈ bs, c.addr ∉ addrs q.bfirst) : Sound (q.putback k bs) :=
  (h.leftover k hbs).restart _

theorem taken (m : Mode) (len : Nat) :
    Sound (q.taken m len).2 ∧ ∀ r, (q.taken m len).1 = .data r → ∀ c ∈ r.2, c.addr ∉ addrs
    (q.taken m len).2.bfirst := by
  have hs : Sound (if m.coalesce then q.goAway q.bfirst else q) := by
    split
    · exact h.goAway rfl
    · exact h
  unfold Fifo.taken
  dsimp only
  generalize (if m.coalesce then q.goAway q.bfirst else q) = q₁ at hs
  split
  case h_1 =>
    refine ⟨hs.qwait, fun r hr => ?_⟩
    unfold Fifo.qwait at hr
    split at hr
    · dsimp only at hr
      split at hr <;> cases hr
    · cases hr
  case h_2 b rest hq =>
    obtain ⟨hfirst, happ⟩ := first_spec hs hq m len
    refine ⟨hfirst, fun r hr c hc => ?_⟩
    cases hr
    have hnd := hs.nodup
    rw [hq, ← happ, addrs_append] at hnd
    exact fun hmem => (nodup_append.1 hnd).2.2 _ (addr_bl2mem hc) _ hmem rfl

theorem qread (m : Mode) (len : Nat) : Sound (q.qread m len).2 := by
  obtain ⟨hs, hr⟩ := h.taken m len
  unfold Fifo.qread
  dsimp only
  split
  case h_1 r heq => exact hs.putback m.toKind (hr r heq)
  case h_2 => exact hs
  case h_3 => exact hs
  case h_4 => exact hs

end Sound

theorem Sound.empty {q' : Fifo} (hb : q'.bfirst = []) (hlen : q'.len = 0) (hdlen : q'.dlen = 0) : Sound q' := by
  refine ⟨⟨?_, ?_, fun hne => absurd hb hne⟩, ?_⟩
  · rw [hlen, hb]
    rfl
  · rw [hdlen, hb]
    rfl
  · rw [hb]
    exact nodup_nil

section Writers
variable {q q' : Fifo} {bs : List Block} {r : Int × Fifo} (h : Sound q)
include h

theorem Sound.appended {α : Type} {f : Fifo → α} (g : α → Fifo) {r : α} (hbs : bs ≠ []) (hn : (addrs bs).Nodup)
    (hd : ∀ a ∈ addrs bs, a ∉ addrs q.bfirst) (hr : (q.append bs).map f = some r)
    (hf : ∀ q', Sound q' → Sound (g (f q'))) : Sound (g r) := by
  obtain ⟨q', happ, hs, -⟩ := h.append hbs hn hd
  rw [happ] at hr
  cases hr
  exact hf q' hs

theorem Sound.qpass (hn : (addrs bs).Nodup) (hd : ∀ a ∈ addrs bs, a ∉ addrs q.bfirst) (hr : q.qpass bs = some r) :
    Sound r.2 := by
  unfold Fifo.qpass at hr
  split at hr
  · cases hr
    exact h
  split at hr
  · cases hr
    exact h
  · split at hr
    case h_1 => cases hr
    case h_2 =>
      exact h.appended Prod.snd (cons_ne_nil _ _) hn hd hr fun q' hs => (hs.flows _).fed

theorem Sound.qpassnolim (hn : (addrs bs).Nodup) (hd : ∀ a ∈ addrs bs, a ∉ addrs q.bfirst)
    (hr : q.qpassnolim bs = some r) : Sound r.2 := by
  unfold Fifo.qpassnolim at hr
  split at hr
  case h_1 => cases hr
  case h_2 =>
    split at hr
    · rw [← Option.some.inj hr]
      exact h
    · exact h.appended Prod.snd (cons_ne_nil _ _) hn hd hr fun q' hs => (hs.flows _).fed

theorem Sound.qaddlist (hn : (addrs bs).Nodup) (hd : ∀ a ∈ addrs bs, a ∉ addrs q.bfirst)
    (hr : q.qaddlist bs = some q') : Sound q' := by
  unfold Fifo.qaddlist at hr
  split at hr
  case h_1 => cases hr
  case h_2 =>
    obtain ⟨q₁, happ, hs, -⟩ := h.append (cons_ne_nil _ _) hn hd
    cases happ.symm.trans hr
    exact hs

theorem Sound.qproduce {block : Option Nat} {p : Bytes} (hd : ∀ a ∈ block.toList, a ∉ addrs q.bfirst)
    (hr : q.qproduce block p = some r) : Sound r.2 := by
  unfold Fifo.qproduce at hr
  split at hr
  · cases hr
    exact h
  split at hr
  · cases hr
    exact h.congr rfl rfl rfl rfl
  cases block with
  | none =>
    cases hr
    exact h
  | some addr =>
    have hn : (addrs [⟨addr, 0, p, 0⟩]).Nodup := nodup_singleton addr
    exact h.appended Prod.snd (cons_ne_nil _ _) hn hd hr fun q' hs => hs.fed.flows _

theorem Sound.qbwrite {k : Kind} {b : Block} {r : Out × Fifo} (hd : b.addr ∉ addrs q.bfirst)
    (hr : q.qbwrite k b = some r) : Sound r.2 := by
  unfold Fifo.qbwrite at hr
  split at hr
  · cases hr
    exact h
  split at hr
  · cases hr
    exact h
  split at hr
  · cases hr
    exact h
  refine h.appended Prod.snd (cons_ne_nil b []) (nodup_singleton _) ?_ hr fun q' hs => ?_
  · intro a ha
    obtain rfl := mem_singleton.1 ha
    exact hd
  · unfold flowControl
    dsimp only
    split
    · exact hs.congr rfl rfl rfl rfl
    · exact hs.congr rfl rfl rfl rfl

theorem Sound.qwrite {k : Kind} {p : Bytes} {len sofar : Int} {block : Option Nat} {r : Out × Fifo}
    (hd : ∀ a ∈ block.toList, a ∉ addrs q.bfirst) (hr : q.qwrite k p len sofar block = some r) : Sound r.2 := by
  unfold Fifo.qwrite at hr
  cases block with
  | none =>
    cases hr
    exact h
  | some addr =>
    dsimp only at hr
    split at hr
    · cases hr
    · exact h.qbwrite (hd addr (mem_singleton_self addr)) hr

theorem Sound.qiwrite {p : Bytes} {len sofar : Int} {block : Option Nat}
    (hd : ∀ a ∈ block.toList, a ∉ addrs q.bfirst) (hr : q.qiwrite p len sofar block = some q') : Sound q' := by
  unfold Fifo.qiwrite at hr
  cases block with
  | none =>
    cases hr
    exact h
  | some addr =>
    dsimp only at hr
    split at hr
    · cases hr
    · have hn : (addrs [piece Maxatomic p len sofar addr]).Nodup := nodup_singleton addr
      exact h.appended id (cons_ne_nil _ _) hn hd hr fun q' hs => hs.fed

end Writers

/-- A block that `qbwrite` adds is the `link` of the queue, and the rest is as if nobody else had been there. -/
theorem Sound.qbwrite_eq {q : Fifo} {k : Kind} {b : Block} {t : Option Nat} (h : Sound q)
    (hd : b.addr ∉ addrs q.bfirst) :
    (q.qbwrite k b).map (fun r => (r.1, r.2.toQueue)) =
      some ((Qio.qbwrite k ⟨t, id, []⟩ b q.toQueue).1, (Qio.qbwrite k ⟨t, id, []⟩ b q.toQueue).2.1) := by
  unfold Fifo.qbwrite Qio.qbwrite
  dsimp only [id]
  obtain ⟨q', happ, -, rfl⟩ := h.append (cons_ne_nil b []) (nodup_singleton _) fun a ha => by
    obtain rfl := mem_singleton.1 ha
    exact hd
  rw [happ]
  split_ifs
  · rfl
  · rfl
  · rfl
  · simp [Fifo.fed, Queue.link]

/-- A queue of `qopen`. -/
def Fifo.qopen (limit : Int) : Fifo := ⟨⟨[], 0, 0, limit, false, false, true, false⟩, none, 0, []⟩

theorem Sound.qopen (limit : Int) : Sound (Fifo.qopen limit) := .empty rfl rfl rfl

end Node9.Qio
