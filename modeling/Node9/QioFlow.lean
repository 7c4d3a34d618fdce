import Node9.QioStream

/-!
# Sleepers at a queue (`qio.c`)

The readers that sleep have `rlock`, and the writers that sleep have `wlock`, so that there is one of either. A step is
what a process does under one lock: of `q->l`, or of the Rendez in `Sleep` and `Wakeup`. Between the step that sets
`Qstarve` or `Qflow` and the one that looks at the queue again in `Sleep` a process is `drowsy`. `rr` and `wr` are the
calls of `Wakeup` that are still to come. A `qread` that copies has yet to restart the writers.

An error that `allocb` raises in `qbread` leaves `q->l` locked: nobody gets it any more.
-/

namespace Node9.Qio.Flow
open Buf Steps

/-- The process with `rlock`. -/
inductive Reader
  | free
  | busy
  | drowsy
  | asleep
  | copying (left : List Block)
  | stuck
deriving DecidableEq

/-- The process with `wlock`. It is `full` when it has seen that the queue is, and `Qflow` is not set yet. -/
inductive Writer
  | free
  | checking
  | full
  | drowsy
  | asleep
deriving DecidableEq

structure St where
  q : Fifo
  reader : Reader
  writer : Writer
  rr : Nat
  wr : Nat

inductive Act
  | rlock
  | qread (len : Nat)
  | putback
  | qbread (len : Nat) (block : Option Nat)
  | rsleep
  | rinterrupt
  | qget
  | qconsume (len : Nat)
  | qdiscard (len : Int)
  | qbwrite (b : Block)
  | qwrite (p : Bytes) (len sofar : Int) (block : Option Nat)
  | wcheck
  | wflag
  | wsleep
  | winterrupt
  | qproduce (block : Option Nat) (p : Bytes)
  | qpass (bs : List Block)
  | qhangup (msg : Bytes)
  | qclose
  | wakeRr
  | wakeWr

/-- The blocks that a `qread` has not emptied. -/
def Reader.left : Reader → List Block
  | .copying bs => bs
  | _ => []

/-- A flag was cleared, for which there is a `Wakeup`. -/
def cleared (before after : Bool) : Nat := if before && !after then 1 else 0

def St.set (s : St) (q : Fifo) : St :=
  { s with q := q, rr := s.rr + cleared s.q.starve q.starve, wr := s.wr + cleared s.q.flow q.flow }

/-- `qbwrite` up to its first `unlock`. There is a result only if it ends there. -/
def queue (k : Kind) (b : Block) (q : Fifo) : Option (Option Out × Fifo) :=
  if k.bypass then some (some .returned, q)
  else if q.closed then some (some .error, q)
  else if q.drops then some (some .returned, q)
  else (q.append [b]).map fun q => (none, q.fed)

def notempty (q : Fifo) : Bool := q.closed || !q.bfirst.isEmpty

def St.full (s : St) : Bool := !(s.q.noblock || qnotfull s.q.toQueue)

def qhangup (msg : Bytes) (q : Fifo) : Fifo :=
  { q with closed := true, err := if msg = [] then Ehungup else msg }

/-- Where a reader is after `qread` has taken its blocks, or has found none. -/
def Reader.read : Got (Bytes × List Block) → Reader
  | .data r => .copying r.2
  | .asleep => .drowsy
  | .eof => .free
  | .error => .free

/-- The same of `qbread`, for which an error on a list that is not empty is from `allocb`. -/
def Reader.bread (q : Fifo) : Got Block → Reader
  | .data _ => .free
  | .asleep => .drowsy
  | .eof => .free
  | .error => if q.bfirst.isEmpty then .free else .stuck

def Writer.queued : Option Out → Writer
  | none => .checking
  | some _ => .free

/-- A block that comes to the queue. -/
def St.queue (m : Mode) (s : St) (b : Block) : Option St :=
  if s.writer = .free then
    (Flow.queue m.toKind b s.q).map fun r => { s.set r.2 with writer := Writer.queued r.1 }
  else none

def Act.gives : Act → List Nat
  | .qbread _ block => block.toList
  | .qbwrite b => [b.addr]
  | .qwrite _ _ _ block => block.toList
  | .qproduce block _ => block.toList
  | .qpass bs => addrs bs
  | _ => []

def Act.exec (m : Mode) (s : St) : Act → Option St
  | .rlock => if s.reader = .free then some { s with reader := .busy } else none
  | .qread len =>
    if s.reader = .busy then
      let r := s.q.taken m len
      some { s.set r.2 with reader := .read r.1 }
    else none
  | .putback =>
    match s.reader with
    | .copying bs => some { s.set (s.q.putback m.toKind bs) with reader := .free }
    | _ => none
  | .qbread len block =>
    if s.reader = .busy then
      let r := s.q.qbread m.toKind len block
      some { s.set r.2 with reader := .bread s.q r.1 }
    else none
  | .rsleep => if s.reader = .drowsy then some { s with reader := if notempty s.q then .busy else .asleep } else none
  | .rinterrupt => if s.reader = .drowsy ∨ s.reader = .asleep then some { s with reader := .free } else none
  | .qget => some (s.set s.q.qget.2)
  | .qconsume len => some (s.set (s.q.qconsume m.toKind len).2)
  | .qdiscard len => some (s.set (s.q.qdiscard len).2)
  | .qbwrite b => s.queue m b
  | .qwrite p len sofar block =>
    match block with
    | none => if s.writer = .free then some s else none
    | some addr =>
      if pieceSize Maxatomic len sofar < 0 then none else s.queue m (piece Maxatomic p len sofar addr)
  | .wcheck => if s.writer = .checking then some { s with writer := if s.full then .full else .free } else none
  | .wflag => if s.writer = .full then some { s with q := { s.q with flow := true }, writer := .drowsy } else none
  | .wsleep =>
    if s.writer = .drowsy then some { s with writer := if qnotfull s.q.toQueue then .checking else .asleep } else none
  | .winterrupt => if s.writer = .drowsy ∨ s.writer = .asleep then some { s with writer := .free } else none
  | .qproduce block p => (s.q.qproduce block p).map fun r => s.set r.2
  | .qpass bs => (s.q.qpass bs).map fun r => s.set r.2
  | .qhangup msg => some { s with q := Flow.qhangup msg s.q, rr := s.rr + 1, wr := s.wr + 1 }
  | .qclose => some { s with q := s.q.qclose, rr := s.rr + 1, wr := s.wr + 1 }
  | .wakeRr =>
    if 0 < s.rr then
      some { s with rr := s.rr - 1, reader := if s.reader = .asleep then .busy else s.reader }
    else none
  | .wakeWr =>
    if 0 < s.wr then
      some { s with wr := s.wr - 1, writer := if s.writer = .asleep then .checking else s.writer }
    else none

/-- It does not lock `q->l`. -/
def Act.lockless : Act → Bool
  | .rsleep => true
  | .rinterrupt => true
  | .wcheck => true
  | .wsleep => true
  | .winterrupt => true
  | .wakeRr => true
  | .wakeWr => true
  | _ => false

def Act.Owns (s : St) (a : Act) : Prop :=
  a.gives.Nodup ∧ ∀ x ∈ a.gives, x ∉ addrs s.q.bfirst ∧ x ∉ addrs s.reader.left

instance (s : St) (a : Act) : Decidable (a.Owns s) := inferInstanceAs (Decidable (_ ∧ _))

def step (m : Mode) (s : St) (a : Act) : Option St :=
  if a.Owns s ∧ (s.reader = .stuck → a.lockless) then a.exec m s else none

/-- Who sleeps has a reason to, or is about to be woken. -/
structure NoneLost (s : St) : Prop where
  writer : s.writer = .asleep → s.q.len < s.q.half ∨ s.q.closed = true → 0 < s.wr ∨ ∃ bs, s.reader = .copying bs
  reader : s.reader = .asleep → s.q.bfirst ≠ [] ∨ s.q.closed = true → 0 < s.rr

/-- The last block goes when `len` bytes are discarded. -/
def Empties (len : Int) : List Block → Prop
  | [] => True
  | b :: rest => 0 < len ∧ (b.BLEN : Int) ≤ len ∧ Empties (len - b.BLEN) rest

/-- The last block goes when `len` bytes are consumed. -/
def Consumes (k : Kind) (len : Nat) (bp : List Block) : Prop :=
  match bp.dropWhile fun b => b.BLEN = 0 with
  | [] => True
  | b :: rest => rest = [] ∧ (k.msg = true ∨ b.BLEN ≤ len)

/-- If the list is emptied now, a reader sleeps without `Qstarve`. -/
def St.Missing (s : St) : Prop := s.reader = .drowsy ∧ s.q.starve = false ∧ s.q.closed = false

/-- Only blocks without bytes, which go without a look at `Qflow`; and a writer sleeps. -/
def St.Hollow (s : St) : Prop := s.writer = .asleep ∧ s.wr = 0 ∧ s.q.bfirst ≠ [] ∧ bytes s.q.bfirst = []

/-- With `bs`, the size of the blocks fits an `int`. -/
def St.Room (s : St) (bs : List Block) : Prop := alloc s.q.bfirst + alloc s.reader.left + alloc bs < 2 ^ 31

/-- What is left over does not fill the queue again for a writer that is `drowsy` without `Qflow`. -/
def Act.Careful (m : Mode) (s : St) : Act → Prop
  | .qread _ => m.coalesce = true → ¬ s.Hollow
  | .putback =>
    s.writer = .drowsy → s.q.flow = true ∨ s.q.closed = true ∨ m.msg = true ∨ s.q.len + alloc s.reader.left < s.q.limit
  | .qbread len block => m.msg = true ∨ block ≠ none ∨ ∀ b ∈ s.q.bfirst.head?, b.BLEN ≤ len
  | .qget => s.Missing → s.q.bfirst.length ≠ 1
  | .qconsume len => ¬ s.Hollow ∧ (s.Missing → ¬ Consumes m.toKind len s.q.bfirst)
  | .qdiscard len => s.Missing → ¬ Empties len s.q.bfirst
  | .qbwrite b => s.Room [b]
  | .qwrite p len sofar _ => s.Room [piece Maxatomic p len sofar 0]
  | .qproduce _ p => s.Room [⟨0, 0, p, 0⟩]
  | .qpass bs => s.Room bs
  | _ => True

/-! ### What is taken off -/

/-- The list and its counters have changed, and not the flags. -/
structure Frame (q q' : Fifo) : Prop where
  sound : Sound q'
  closed : q'.closed = q.closed
  limit : q'.limit = q.limit
  flow : q'.flow = q.flow
  starve : q'.starve = q.starve

/-- `bs` was taken from `q`, or more. -/
structure Drains (q q' : Fifo) (bs : List Block) : Prop extends Frame q q' where
  le : alloc q'.bfirst + alloc bs ≤ alloc q.bfirst
  addrs : addrs q'.bfirst ⊆ addrs q.bfirst

namespace Drains
variable {q q₁ q' : Fifo} {b : Block} {bp bs rest : List Block}

theorem refl (h : Sound q) : Drains q q [] := ⟨⟨h, rfl, rfl, rfl, rfl⟩, le_rfl, fun _ ha => ha⟩

theorem trans {cs : List Block} (h : Drains q q₁ bs) (h' : Drains q₁ q' cs) : Drains q q' (bs ++ cs) := by
  refine ⟨⟨h'.sound, h'.closed.trans h.closed, h'.limit.trans h.limit, h'.flow.trans h.flow, h'.starve.trans h.starve⟩,
    ?_, fun a ha => h.addrs (h'.addrs ha)⟩
  have hle := h.le
  have hle' := h'.le
  rw [alloc_append]
  omega

theorem none (h : Drains q q' bs) : Drains q q' [] := by
  have hle := h.le
  exact ⟨h.toFrame, by rw [alloc_nil]; omega, h.addrs⟩

theorem tail (hq : q.bfirst = b :: rest) (hf : Frame q q') (hb : q'.bfirst = rest) : Drains q q' [b] := by
  refine ⟨hf, ?_, ?_⟩
  · rw [hb, hq, alloc_cons, alloc_cons, alloc_nil]
    omega
  · rw [hb, hq, addrs_cons]
    exact List.subset_cons_self _ _

theorem pop (h : Sound q) (hq : q.bfirst = b :: rest) : Drains q (q.pop b rest) [b] :=
  tail hq ⟨h.pop hq, rfl, rfl, rfl, rfl⟩ rfl

theorem front {n : Nat} (hq : q.bfirst = b :: rest) (hn : n ≤ b.BLEN) (hf : Frame q q')
    (hb : q'.bfirst = b.skip n :: rest) : Drains q q' [] := by
  refine ⟨hf, ?_, ?_⟩
  · rw [hb, hq, alloc_cons, alloc_cons, BALLOC_skip hn, alloc_nil, add_zero]
  · rw [hb, hq]
    exact fun _ ha => ha

theorem goAway (h : Sound q) (hq : q.bfirst = bp) : Drains q (Fifo.goAway q bp) [] := by
  induction bp generalizing q with
  | nil => exact refl h
  | cons b rest ih =>
    unfold Fifo.goAway
    split
    · exact ((pop h hq).trans (ih (h.pop hq) rfl)).none
    · exact refl h

theorem grab (h : Sound q) (hq : q.bfirst = bp) (len n : Nat) :
    Drains q (Fifo.grab len n q bp).2 (Fifo.grab len n q bp).1 := by
  induction bp generalizing q n with
  | nil => exact refl h
  | cons b rest ih =>
    unfold Fifo.grab
    split
    · exact refl h
    · exact (pop h hq).trans (ih (h.pop hq) rfl _)

theorem first (h : Sound q) (hq : q.bfirst = b :: rest) (m : Mode) (len : Nat) :
    Drains q (q.first m len b rest).2 (q.first m len b rest).1 := by
  unfold Fifo.first
  split
  · exact (pop h hq).trans (grab (h.pop hq) rfl _ _)
  · exact pop h hq

theorem skipEmpty (h : Sound q) (hq : q.bfirst = bp) : Drains q (Fifo.skipEmpty q bp) [] := by
  induction bp generalizing q with
  | nil => exact refl h
  | cons b rest ih =>
    have hs := h.skipEmpty hq
    unfold Fifo.skipEmpty at hs ⊢
    by_cases hpos : 0 < b.BLEN
    · rw [if_pos hpos]
      exact refl h
    · have hzero : b.BLEN = 0 := Nat.eq_zero_of_not_pos hpos
      have hsound : Sound { q with bfirst := rest, len := int (q.len - b.BALLOC) } := h.tail hq rfl rfl rfl (by
        rw [hzero, Nat.cast_zero, Int.sub_zero, h.dlen, int_int])
      rw [if_neg hpos]
      exact ((tail hq ⟨hsound, rfl, rfl, rfl, rfl⟩ rfl).trans (ih hsound rfl)).none

theorem discardLoop (h : Sound q) (hq : q.bfirst = bp) (len sofar : Int) :
    Drains q (Fifo.discardLoop len q sofar bp).2 [] := by
  induction bp generalizing q sofar with
  | nil => exact refl h
  | cons b rest ih =>
    have hs := h.discardLoop hq len sofar
    unfold Fifo.discardLoop at hs ⊢
    by_cases hlt : sofar < len
    · rw [if_pos hlt] at hs ⊢
      by_cases hle : (b.BLEN : Int) ≤ len - sofar
      · simp only [if_pos hle]
        exact ((pop h hq).trans (ih (h.pop hq) rfl _)).none
      · simp only [if_neg hle] at hs ⊢
        exact front hq (by omega) ⟨hs, rfl, rfl, rfl, rfl⟩ rfl
    · rw [if_neg hlt]
      exact refl h

end Drains

theorem alloc_bl2mem (bp : List Block) (n : Nat) : alloc (bl2mem bp n).2 ≤ alloc bp := by
  induction bp generalizing n with
  | nil => exact le_rfl
  | cons b next ih =>
    unfold bl2mem
    split
    case isTrue hlt =>
      rw [alloc_cons, alloc_cons, BALLOC_skip (le_of_lt hlt)]
    case isFalse =>
      rw [alloc_cons]
      exact (ih _).trans (Nat.le_add_left _ _)

theorem skipEmpty_bfirst {q : Fifo} {bp : List Block} (hq : q.bfirst = bp) :
    (Fifo.skipEmpty q bp).bfirst = bp.dropWhile fun b => b.BLEN = 0 := by
  induction bp generalizing q with
  | nil => exact hq
  | cons b rest ih =>
    unfold Fifo.skipEmpty
    by_cases hpos : 0 < b.BLEN
    · rw [if_pos hpos, List.dropWhile_cons_of_neg (by simpa using Nat.ne_of_gt hpos), hq]
    · rw [if_neg hpos, List.dropWhile_cons_of_pos (by simpa using Nat.eq_zero_of_not_pos hpos)]
      exact ih rfl

theorem empties_of_discarded {q : Fifo} {bp : List Block} (hq : q.bfirst = bp) {len sofar : Int}
    (hnil : (Fifo.discardLoop len q sofar bp).2.bfirst = []) : Empties (len - sofar) bp := by
  induction bp generalizing q sofar with
  | nil => trivial
  | cons b rest ih =>
    unfold Fifo.discardLoop at hnil
    by_cases hlt : sofar < len
    · rw [if_pos hlt] at hnil
      by_cases hle : (b.BLEN : Int) ≤ len - sofar
      · simp only [if_pos hle] at hnil
        refine ⟨by omega, hle, ?_⟩
        have hrest := ih rfl hnil
        rwa [← Int.sub_sub] at hrest
      · simp only [if_neg hle] at hnil
        cases hnil
    · rw [if_neg hlt, hq] at hnil
      cases hnil

end Node9.Qio.Flow
