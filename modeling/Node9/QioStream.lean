import Node9.QioQueue

/-!
# A queue as a stream (`qio.c`)

A step is what one process does to the queue from a `lock` to the next `unlock`, so that a run is any interleaving of
any number of readers and writers. `qread` is two steps: `take`, up to the copy, and `putback`. In between the bytes
that it copies count as delivered, and `left` is what it will put back; `rlock` keeps out the other `qread`s and the
`qbread`s, but not `qget` and `qconsume`. A process that sleeps has done its step, and one that is woken in `qwait`
begins again.
-/

namespace Node9.Qio
open Buf Steps List
open Option hiding mem_map mem_map_of_mem

structure Stream where
  q : Fifo
  /-- Nothing if no `qread` is at the copy. -/
  left : Option (List Block)
  delivered : Bytes
  enqueued : Bytes

def Stream.held (s : Stream) : List Block := s.left.getD []

inductive Act
  | take (len : Nat)
  | putback
  | qbread (len : Nat) (block : Option Nat)
  | qconsume (len : Nat)
  | qget
  | qbwrite (b : Block)
  | qwrite (p : Bytes) (len sofar : Int) (block : Option Nat)
  | qproduce (block : Option Nat) (p : Bytes)
  | qpass (bs : List Block)

def Got.get? {α : Type} : Got α → Option α
  | .data a => some a
  | _ => none

/-- The bytes of a block that was written. With a bypass none gets to the queue. -/
def Out.counts (k : Kind) (o : Out) (xs : Bytes) : Bytes := if k.bypass ∨ o = .error then [] else xs

/-- The same of a function that returns -1 if nothing was. -/
def counts (n : Int) (xs : Bytes) : Bytes := if n < 0 then [] else xs

def Act.gives : Act → List Nat
  | .qbread _ block => block.toList
  | .qbwrite b => [b.addr]
  | .qwrite _ _ _ block => block.toList
  | .qproduce block _ => block.toList
  | .qpass bs => addrs bs
  | _ => []

/-- `qpass` refuses a list over the limit. -/
def Act.exec (m : Mode) (s : Stream) : Act → Option Stream
  | .take len =>
    if s.left.isSome then none
    else
      let r := s.q.taken m len
      some { s with
        q := r.2, left := r.1.get?.map Prod.snd, delivered := s.delivered ++ (r.1.get?.map Prod.fst).getD [] }
  | .putback => s.left.map fun bs => { s with q := s.q.putback m.toKind bs, left := none }
  | .qbread len block =>
    if s.left.isSome then none
    else
      let r := s.q.qbread m.toKind len block
      some { s with q := r.2, delivered := s.delivered ++ (r.1.get?.map Block.data).getD [] }
  | .qconsume len =>
    let r := s.q.qconsume m.toKind len
    some { s with q := r.2, delivered := s.delivered ++ r.1.getD [] }
  | .qget => some { s with q := s.q.qget.2, delivered := s.delivered ++ (s.q.qget.1.map Block.data).getD [] }
  | .qbwrite b =>
    (s.q.qbwrite m.toKind b).map fun r => { s with q := r.2, enqueued := s.enqueued ++ r.1.counts m.toKind b.data }
  | .qwrite p len sofar block =>
    (s.q.qwrite m.toKind p len sofar block).map fun r =>
      { s with q := r.2, enqueued := s.enqueued ++ r.1.counts m.toKind (piece Maxatomic p len sofar 0).data }
  | .qproduce block p =>
    (s.q.qproduce block p).map fun r => { s with q := r.2, enqueued := s.enqueued ++ counts r.1 p }
  | .qpass bs =>
    (s.q.qpass bs).map fun r =>
      { s with q := r.2, enqueued := s.enqueued ++ if s.q.limit ≤ s.q.len then [] else bytes bs }

/-- Who gives a block has it, so that it is not on the list, nor left over. -/
def Act.Owns (s : Stream) (a : Act) : Prop :=
  a.gives.Nodup ∧ ∀ x ∈ a.gives, x ∉ addrs s.q.bfirst ∧ x ∉ addrs s.held

instance Act.decidableOwns (s : Stream) (a : Act) : Decidable (a.Owns s) := inferInstanceAs (Decidable (_ ∧ _))

def turn (m : Mode) (s : Stream) (a : Act) : Option Stream := if a.Owns s then a.exec m s else none

/-- What was delivered, and then what is still there. -/
def Intact (s : Stream) : Prop := s.delivered ++ (bytes s.held ++ bytes s.q.bfirst) = s.enqueued

/-- Nothing is taken from behind what a `qread` will put back, and `qbread` gets the block for the rest. -/
def Act.Orderly (s : Stream) : Act → Prop
  | .qget => s.held = [] ∨ ∀ b ∈ s.q.bfirst.head?, b.data = []
  | .qconsume len => s.held = [] ∨ len = 0 ∨ bytes s.q.bfirst = []
  | .qbread len block => block ≠ none ∨ ∀ b ∈ s.q.bfirst.head?, b.BLEN ≤ len
  | _ => True

namespace Fifo
variable (q : Fifo) (bound : Int)

@[simp] theorem restart_bfirst : (q.restart bound).bfirst = q.bfirst := by
  unfold restart
  split <;> rfl

@[simp] theorem restart_closed : (q.restart bound).closed = q.closed := by
  unfold restart
  split <;> rfl

@[simp] theorem restart_noblock : (q.restart bound).noblock = q.noblock := by
  unfold restart
  split <;> rfl

@[simp] theorem flows_bfirst : (q.flows bound).bfirst = q.bfirst := by
  unfold flows
  split <;> rfl

@[simp] theorem flows_closed : (q.flows bound).closed = q.closed := by
  unfold flows
  split <;> rfl

@[simp] theorem flows_noblock : (q.flows bound).noblock = q.noblock := by
  unfold flows
  split <;> rfl

end Fifo

/-! ### What a reader does -/

/-- `q'` is `q` without the bytes `x` at the front. -/
structure Reads (q q' : Fifo) (x : Bytes) : Prop where
  sound : Sound q'
  closed : q'.closed = q.closed
  noblock : q'.noblock = q.noblock
  bytes : x ++ bytes q'.bfirst = bytes q.bfirst
  addrs : addrs q'.bfirst ⊆ addrs q.bfirst

namespace Reads
variable {q q₁ q' : Fifo} {x y : Bytes} {b : Block} {bp rest : List Block}

theorem refl (h : Sound q) : Reads q q [] := ⟨h, rfl, rfl, rfl, fun _ ha => ha⟩

theorem trans (h : Reads q q₁ x) (h' : Reads q₁ q' y) : Reads q q' (x ++ y) := by
  refine ⟨h'.sound, h'.closed.trans h.closed, h'.noblock.trans h.noblock, ?_, fun a ha => h.addrs (h'.addrs ha)⟩
  rw [append_assoc, h'.bytes, h.bytes]

theorem starved (h : Sound q) : Reads q q.starved [] := ⟨h.starved, rfl, rfl, rfl, fun _ ha => ha⟩

theorem restart (h : Reads q q' x) (bound : Int) : Reads q (q'.restart bound) x := by
  refine ⟨h.sound.restart bound, ?_, ?_, ?_, ?_⟩
  · rw [Fifo.restart_closed, h.closed]
  · rw [Fifo.restart_noblock, h.noblock]
  · rw [Fifo.restart_bfirst, h.bytes]
  · rw [Fifo.restart_bfirst]
    exact h.addrs

theorem tail (hq : q.bfirst = b :: rest) (hs : Sound q') (hb : q'.bfirst = rest)
    (hc : q'.closed = q.closed) (hn : q'.noblock = q.noblock) : Reads q q' b.data := by
  refine ⟨hs, hc, hn, ?_, ?_⟩
  · rw [hb, hq, bytes_cons]
  · rw [hb, hq, addrs_cons]
    exact subset_cons_self _ _

theorem pop (h : Sound q) (hq : q.bfirst = b :: rest) : Reads q (q.pop b rest) b.data :=
  tail hq (h.pop hq) rfl rfl rfl

theorem qwait {α : Type} (h : Sound q) :
    (q.qwait : Got α × Fifo).1.get? = none ∧ Reads q (q.qwait : Got α × Fifo).2 [] := by
  unfold Fifo.qwait
  split
  · refine ⟨?_, h.congr rfl rfl rfl rfl, rfl, rfl, rfl, fun _ ha => ha⟩
    dsimp only
    split <;> rfl
  · exact ⟨rfl, starved h⟩

theorem qget (h : Sound q) : Reads q q.qget.2 ((q.qget.1.map Block.data).getD []) := by
  unfold Fifo.qget
  split
  case h_1 => exact starved h
  case h_2 b rest hq => exact (pop h hq).restart _

theorem skipEmpty (h : Sound q) (hq : q.bfirst = bp) : Reads q (Fifo.skipEmpty q bp) [] := by
  induction bp generalizing q with
  | nil => exact refl h
  | cons b rest ih =>
    unfold Fifo.skipEmpty
    by_cases hpos : 0 < b.BLEN
    · rw [if_pos hpos]
      exact refl h
    rw [if_neg hpos]
    have hzero : b.BLEN = 0 := Nat.eq_zero_of_not_pos hpos
    have hs : Sound { q with bfirst := rest, len := int (q.len - b.BALLOC) } := h.tail hq rfl rfl rfl (by
      rw [hzero, Nat.cast_zero, Int.sub_zero, h.dlen, int_int])
    have htail := tail hq hs rfl rfl rfl
    rw [eq_nil_of_length_eq_zero hzero] at htail
    exact htail.trans (ih hs rfl)

theorem qconsume {k : Kind} (hk : k.msg = false) (len : Nat) (h : Sound q) :
    Reads q (q.qconsume k len).2 ((q.qconsume k len).1.getD []) := by
  have hs := skipEmpty h rfl
  unfold Fifo.qconsume
  dsimp only
  generalize Fifo.skipEmpty q q.bfirst = q₁ at hs
  split
  case h_1 => exact hs.trans (starved hs.sound)
  case h_2 b rest hq =>
    have hle : (if b.BLEN < len then b.BLEN else len) ≤ b.BLEN := by
      split <;> omega
    generalize (if b.BLEN < len then b.BLEN else len) = n at hle
    have hfront : Sound { q₁ with bfirst := b.skip n :: rest, dlen := int (q₁.dlen - n) } :=
      hs.sound.front hq hle rfl rfl rfl rfl
    have hread : Reads q₁ { q₁ with bfirst := b.skip n :: rest, dlen := int (q₁.dlen - n) } (b.data.take n) := by
      refine ⟨hfront, rfl, rfl, ?_, ?_⟩
      · rw [hq, bytes_cons, bytes_cons, ← append_assoc, bytes_skip]
      · rw [hq]
        exact fun _ ha => ha
    refine restart ?_ _
    rw [hk, Bool.false_or]
    split
    · rename_i heq
      have hdone : (b.skip n).data = [] := by
        rw [of_decide_eq_true heq]
        exact drop_length
      have hpop := hread.trans (pop hfront rfl)
      rw [hdone, append_nil] at hpop
      exact hs.trans hpop
    · exact hs.trans hread

theorem goAway (h : Sound q) (hq : q.bfirst = bp) : Reads q (Fifo.goAway q bp) [] := by
  induction bp generalizing q with
  | nil => exact refl h
  | cons b rest ih =>
    unfold Fifo.goAway
    split
    · rename_i hzero
      have hpop := pop h hq
      rw [eq_nil_of_length_eq_zero hzero] at hpop
      exact hpop.trans (ih hpop.sound rfl)
    · exact refl h

theorem grab (h : Sound q) (hq : q.bfirst = bp) (len n : Nat) :
    Reads q (Fifo.grab len n q bp).2 (Qio.bytes (Fifo.grab len n q bp).1) := by
  induction bp generalizing q n with
  | nil => exact refl h
  | cons b rest ih =>
    unfold Fifo.grab
    split
    · exact refl h
    · exact (pop h hq).trans (ih (h.pop hq) rfl _)

theorem first (h : Sound q) (hq : q.bfirst = b :: rest) (m : Mode) (len : Nat) :
    Reads q (q.first m len b rest).2 (Qio.bytes (q.first m len b rest).1) := by
  unfold Fifo.first
  split
  · exact (pop h hq).trans (grab (h.pop hq) rfl _ _)
  · dsimp only
    rw [bytes_cons, bytes_nil, append_nil]
    exact pop h hq

end Reads

theorem bl2mem_append (bp : List Block) (n : Nat) : (bl2mem bp n).1 ++ bytes (bl2mem bp n).2 = bytes bp := by
  induction bp generalizing n with
  | nil => rfl
  | cons b next ih =>
    unfold bl2mem
    split
    · rw [bytes_cons, bytes_cons, ← append_assoc, bytes_skip]
    · dsimp only
      rw [append_assoc, ih, bytes_cons]

theorem bl2mem_all {bp : List Block} {n : Nat} (h : total bp ≤ n) : (bl2mem bp n).2 = [] := by
  induction bp generalizing n with
  | nil => rfl
  | cons b next ih =>
    rw [total_cons] at h
    unfold bl2mem
    rw [if_neg (by omega)]
    exact ih (by omega)

theorem grab_fits (len n : Nat) (q : Fifo) (bp : List Block) :
    (Fifo.grab len n q bp).1 = [] ∨ n + total (Fifo.grab len n q bp).1 ≤ len := by
  induction bp generalizing q n with
  | nil => exact .inl rfl
  | cons b rest ih =>
    unfold Fifo.grab
    split
    · exact .inl rfl
    right
    dsimp only
    rw [total_cons]
    rcases ih (n + b.BLEN) (q.pop b rest) with hnil | hle
    · rw [hnil, total_nil]
      omega
    · omega

theorem first_left (m : Mode) (len : Nat) (b : Block) (rest : List Block) (q : Fifo) :
    (bl2mem (q.first m len b rest).1 len).2.length ≤ 1 := by
  have hone : (bl2mem [b] len).2.length ≤ 1 := by
    unfold bl2mem
    split
    · exact le_rfl
    · exact zero_le
  unfold Fifo.first
  split
  · dsimp only
    rcases grab_fits len b.BLEN (q.pop b rest) rest with hnil | hle
    · rw [hnil]
      exact hone
    · rw [bl2mem_all (by rw [total_cons]; exact hle)]
      exact zero_le
  · exact hone

theorem taken_cases {q : Fifo} (h : Sound q) (m : Mode) (len : Nat) :
    ((q.taken m len).1.get? = none ∧ Reads q (q.taken m len).2 []) ∨
      ∃ out bs, (q.taken m len).1.get? = some (out, bs) ∧ bs.length ≤ 1 ∧ Reads q (q.taken m len).2 (out ++ bytes bs) ∧
        ∀ a ∈ addrs bs, a ∉ addrs (q.taken m len).2.bfirst := by
  have hgo : Reads q (if m.coalesce then q.goAway q.bfirst else q) [] := by
    split
    · exact .goAway h rfl
    · exact .refl h
  have hleft := (h.taken m len).2
  unfold Fifo.taken at hleft ⊢
  dsimp only at hleft ⊢
  generalize (if m.coalesce then q.goAway q.bfirst else q) = q₁ at hgo hleft
  split at hleft
  case h_1 hq =>
    left
    obtain ⟨hget, hr⟩ := Reads.qwait (α := Bytes × List Block) hgo.sound
    exact ⟨hget, hgo.trans hr⟩
  case h_2 b rest hq =>
    right
    refine ⟨_, _, rfl, first_left m len b rest q₁, ?_, fun a ha => ?_⟩
    · rw [bl2mem_append]
      exact hgo.trans (.first hgo.sound hq m len)
    · obtain ⟨c, hc, rfl⟩ := mem_map.1 ha
      exact hleft _ rfl c hc

structure Inv (s : Stream) : Prop where
  sound : Sound s.q
  closed : s.q.closed = false
  noblock : s.q.noblock = false
  one : s.held.length ≤ 1
  apart : ∀ a ∈ addrs s.held, a ∉ addrs s.q.bfirst
  intact : Intact s

/-- The same of a queue that may be closed. -/
structure Kept (c : Bool) (s : Stream) : Prop where
  sound : Sound s.q
  closed : s.q.closed = c
  noblock : s.q.noblock = false
  one : s.held.length ≤ 1
  apart : ∀ a ∈ addrs s.held, a ∉ addrs s.q.bfirst
  intact : Intact s

theorem inv_iff {s : Stream} : Inv s ↔ Kept false s :=
  ⟨fun h => ⟨h.sound, h.closed, h.noblock, h.one, h.apart, h.intact⟩,
    fun h => ⟨h.sound, h.closed, h.noblock, h.one, h.apart, h.intact⟩⟩

namespace Kept
variable {c : Bool} {s : Stream} {q' : Fifo} {x : Bytes} (h : Kept c s)

theorem held_none (hl : ¬ s.left.isSome = true) : s.held = [] := by
  cases hs : s.left with
  | none => rw [Stream.held, hs, getD_none]
  | some bs =>
    rw [hs] at hl
    exact absurd rfl hl

include h

theorem reads (hr : Reads s.q q' x) (hx : s.held = [] ∨ x = []) :
    Kept c { s with q := q', delivered := s.delivered ++ x } := by
  refine ⟨hr.sound, hr.closed.trans h.closed, hr.noblock.trans h.noblock, h.one, fun a ha hmem => ?_, ?_⟩
  · exact h.apart a ha (hr.addrs hmem)
  have hintact := h.intact
  unfold Intact Stream.held at *
  dsimp only
  rw [← hr.bytes] at hintact
  rcases hx with hnil | rfl
  · rw [hnil, bytes_nil, nil_append] at hintact ⊢
    rw [append_assoc]
    exact hintact
  · rw [nil_append] at hintact
    rw [append_nil]
    exact hintact

theorem writes (hs : Sound q') (hc : q'.closed = s.q.closed) (hn : q'.noblock = s.q.noblock)
    (hb : bytes q'.bfirst = bytes s.q.bfirst ++ x) (ha : ∀ a ∈ addrs s.held, a ∉ addrs q'.bfirst) :
    Kept c { s with q := q', enqueued := s.enqueued ++ x } := by
  refine ⟨hs, hc.trans h.closed, hn.trans h.noblock, h.one, ha, ?_⟩
  have hintact := h.intact
  unfold Intact Stream.held at *
  dsimp only
  rw [hb, ← hintact, ← append_assoc, ← append_assoc, append_assoc s.delivered]

theorem appended {α : Type} {f : Fifo → α} (g : α → Fifo) {r : α} {bs : List Block} (hbs : bs ≠ [])
    (hn : (addrs bs).Nodup) (hd : ∀ a ∈ addrs bs, a ∉ addrs s.q.bfirst ∧ a ∉ addrs s.held)
    (hr : (s.q.append bs).map f = some r)
    (hf : ∀ q', Sound q' → Sound (g (f q')) ∧ (g (f q')).closed = q'.closed ∧ (g (f q')).noblock = q'.noblock ∧
      (g (f q')).bfirst = q'.bfirst) :
    Kept c { s with q := g r, enqueued := s.enqueued ++ bytes bs } := by
  obtain ⟨q₁, happ, hs, hq⟩ := h.sound.append hbs hn fun a ha => (hd a ha).1
  rw [happ] at hr
  cases hr
  obtain ⟨hs', hc, hnb, hb⟩ := hf q₁ hs
  have hfirst : q₁.bfirst = s.q.bfirst ++ bs := by rw [hq]
  refine h.writes hs' (hc.trans (by rw [hq])) (hnb.trans (by rw [hq])) ?_ ?_
  · rw [hb, hfirst, bytes_append]
  · rw [hb, hfirst, addrs_append]
    intro a ha hmem
    rcases mem_append.1 hmem with hmem | hmem
    · exact h.apart a ha hmem
    · exact (hd a hmem).2 ha

theorem take (m : Mode) (len : Nat) (hl : ¬ s.left.isSome = true) :
    Kept c { s with
      q := (s.q.taken m len).2, left := (s.q.taken m len).1.get?.map Prod.snd
      delivered := s.delivered ++ ((s.q.taken m len).1.get?.map Prod.fst).getD [] } := by
  have hnone := held_none hl
  rcases taken_cases h.sound m len with ⟨hget, hr⟩ | ⟨out, bs, hget, hone, hr, hapart⟩
  · have hinv := h.reads hr (.inl hnone)
    rw [hget]
    refine ⟨hinv.sound, hinv.closed, hinv.noblock, zero_le, fun a ha => absurd ha not_mem_nil, ?_⟩
    have hintact := hinv.intact
    unfold Intact Stream.held at *
    dsimp only at *
    rw [hnone] at hintact
    exact hintact
  · rw [hget]
    refine ⟨hr.sound, hr.closed.trans h.closed, hr.noblock.trans h.noblock, hone, hapart, ?_⟩
    have hintact := h.intact
    unfold Intact at *
    rw [hnone, bytes_nil, nil_append, ← hr.bytes] at hintact
    show s.delivered ++ out ++ (bytes bs ++ bytes (s.q.taken m len).2.bfirst) = s.enqueued
    rw [← hintact, append_assoc, append_assoc]

theorem putback {k : Kind} {bs : List Block} (hk : k.msg = false) (hl : s.left = some bs) :
    Kept c { s with q := s.q.putback k bs, left := none } := by
  have hheld : s.held = bs := by rw [Stream.held, hl, getD_some]
  have hone := h.one
  have hapart := h.apart
  have hintact := h.intact
  rw [hheld] at hone hapart
  unfold Intact at hintact
  rw [hheld] at hintact
  have hr : Sound (s.q.putback k bs) := h.sound.putback k fun c hc => hapart _ (mem_map_of_mem hc)
  have hres : (s.q.putback k bs).closed = s.q.closed ∧ (s.q.putback k bs).noblock = s.q.noblock ∧
      bytes (s.q.putback k bs).bfirst = bytes bs ++ bytes s.q.bfirst := by
    cases bs with
    | nil => simp [Fifo.putback, Fifo.leftover]
    | cons b bs =>
      obtain rfl : bs = [] := eq_nil_of_length_eq_zero (by simpa using hone)
      simp [Fifo.putback, Fifo.leftover, Fifo.qputback, hk]
  refine ⟨hr, hres.1.trans h.closed, hres.2.1.trans h.noblock, zero_le,
    fun a ha => absurd ha not_mem_nil, ?_⟩
  show s.delivered ++ ([] ++ bytes (s.q.putback k bs).bfirst) = s.enqueued
  rw [hres.2.2, nil_append]
  exact hintact

theorem qbread {k : Kind} {len : Nat} {block : Option Nat} (hk : k.msg = false) (hl : ¬ s.left.isSome = true)
    (hd : ∀ a ∈ block.toList, a ∉ addrs s.q.bfirst) (ho : (Act.qbread len block).Orderly s) :
    Kept c { s with
      q := (s.q.qbread k len block).2
      delivered := s.delivered ++ ((s.q.qbread k len block).1.get?.map Block.data).getD [] } := by
  have hnone := held_none hl
  have hsound := h.sound.qbread k len hd
  have hres : (s.q.qbread k len block).2.closed = s.q.closed ∧ (s.q.qbread k len block).2.noblock = s.q.noblock ∧
      ((s.q.qbread k len block).1.get?.map Block.data).getD [] ++ bytes (s.q.qbread k len block).2.bfirst =
        bytes s.q.bfirst := by
    unfold Fifo.qbread
    split
    case h_1 hq =>
      obtain ⟨hget, hr⟩ := Reads.qwait (α := Block) h.sound
      rw [hget]
      exact ⟨hr.closed, hr.noblock, hr.bytes⟩
    case h_2 b rest hq =>
      by_cases hlt : len < b.BLEN
      · simp only [if_pos hlt, hk, Bool.false_eq_true, if_false]
        cases block with
        | none =>
          rcases ho with ho | ho
          · exact absurd rfl ho
          · have := ho b (by rw [hq]; rfl)
            omega
        | some addr => simp [Fifo.qputback, Fifo.pop, Got.get?, hq, ← append_assoc]
      · simp [if_neg hlt, Fifo.pop, Got.get?, hq]
  refine ⟨hsound, hres.1.trans h.closed, hres.2.1.trans h.noblock, h.one, fun a ha => ?_, ?_⟩
  · have hheld : a ∈ addrs s.held := ha
    rw [hnone] at hheld
    exact absurd hheld not_mem_nil
  have hintact := h.intact
  unfold Intact Stream.held at *
  rw [hnone, bytes_nil, nil_append, ← hres.2.2] at hintact
  dsimp only
  rw [hnone, bytes_nil, nil_append, append_assoc]
  exact hintact

theorem qget (ho : Act.qget.Orderly s) :
    Kept c { s with q := s.q.qget.2, delivered := s.delivered ++ (s.q.qget.1.map Block.data).getD [] } := by
  refine h.reads (.qget h.sound) (ho.imp_right fun hd => ?_)
  unfold Fifo.qget
  split
  case h_1 => rfl
  case h_2 b rest hq => exact hd b (by rw [hq]; rfl)

theorem qconsume {k : Kind} {len : Nat} (hk : k.msg = false) (ho : (Act.qconsume len).Orderly s) :
    Kept c { s with
      q := (s.q.qconsume k len).2, delivered := s.delivered ++ (s.q.qconsume k len).1.getD [] } := by
  have hr := Reads.qconsume hk len h.sound
  refine h.reads hr (ho.imp_right fun hd => ?_)
  rcases hd with rfl | hempty
  · unfold Fifo.qconsume
    dsimp only
    split
    case h_1 => rfl
    case h_2 b rest hq =>
      show b.data.take (if b.BLEN < 0 then b.BLEN else 0) = []
      rw [if_neg (Nat.not_lt_zero _), take_zero]
  · have hb := hr.bytes
    rw [hempty] at hb
    exact (append_eq_nil_iff.1 hb).1

theorem qbwrite {k : Kind} {b : Block} {r : Out × Fifo}
    (hd : b.addr ∉ addrs s.q.bfirst ∧ b.addr ∉ addrs s.held) (hr : s.q.qbwrite k b = some r) :
    Kept c { s with q := r.2, enqueued := s.enqueued ++ r.1.counts k b.data } := by
  have hdrops : s.q.drops = false := by rw [Queue.drops, h.noblock, Bool.and_false]
  unfold Fifo.qbwrite at hr
  by_cases hk : k.bypass = true
  · rw [if_pos hk] at hr
    cases hr
    rw [show Out.counts k .returned b.data = [] from if_pos (.inl hk)]
    exact h.writes h.sound rfl rfl (append_nil _).symm h.apart
  rw [if_neg hk, hdrops] at hr
  split at hr
  · cases hr
    rw [show Out.counts k .error b.data = [] from if_pos (.inr rfl)]
    exact h.writes h.sound rfl rfl (append_nil _).symm h.apart
  rw [if_neg Bool.false_ne_true] at hr
  have hcounts : r.1.counts k b.data = bytes [b] := by
    obtain ⟨q₁, -, rfl⟩ := map_eq_some_iff.1 hr
    rw [bytes_cons, bytes_nil, append_nil]
    unfold flowControl
    dsimp only
    split
    · exact if_neg (by simp [hk])
    · exact if_neg (by simp [hk])
  rw [hcounts]
  refine h.appended Prod.snd (cons_ne_nil b []) (nodup_singleton _) ?_ hr fun q' hs => ?_
  · intro a ha
    obtain rfl := mem_singleton.1 ha
    exact hd
  · unfold flowControl
    dsimp only
    split
    · exact ⟨hs.congr rfl rfl rfl rfl, rfl, rfl, rfl⟩
    · exact ⟨hs.congr rfl rfl rfl rfl, rfl, rfl, rfl⟩

theorem qwrite {k : Kind} {p : Bytes} {len sofar : Int} {block : Option Nat} {r : Out × Fifo}
    (hd : ∀ a ∈ block.toList, a ∉ addrs s.q.bfirst ∧ a ∉ addrs s.held) (hr : s.q.qwrite k p len sofar block = some r) :
    Kept c { s with q := r.2, enqueued := s.enqueued ++ r.1.counts k (piece Maxatomic p len sofar 0).data } := by
  unfold Fifo.qwrite at hr
  cases block with
  | none =>
    cases hr
    rw [show Out.counts k .error (piece Maxatomic p len sofar 0).data = [] from if_pos (.inr rfl)]
    exact h.writes h.sound rfl rfl (append_nil _).symm h.apart
  | some addr =>
    dsimp only at hr
    split at hr
    · cases hr
    · exact h.qbwrite (b := piece Maxatomic p len sofar addr) (hd addr (mem_singleton_self addr)) hr

theorem qproduce {block : Option Nat} {p : Bytes} {r : Int × Fifo}
    (hd : ∀ a ∈ block.toList, a ∉ addrs s.q.bfirst ∧ a ∉ addrs s.held) (hr : s.q.qproduce block p = some r) :
    Kept c { s with q := r.2, enqueued := s.enqueued ++ counts r.1 p } := by
  unfold Fifo.qproduce at hr
  split at hr
  · cases hr
    exact h.writes h.sound rfl rfl (append_nil _).symm h.apart
  split at hr
  · cases hr
    exact h.writes (h.sound.congr rfl rfl rfl rfl) rfl rfl (append_nil _).symm h.apart
  cases block with
  | none =>
    cases hr
    exact h.writes h.sound rfl rfl (append_nil _).symm h.apart
  | some addr =>
    dsimp only at hr
    have hcounts : counts r.1 p = bytes [⟨addr, 0, p, 0⟩] := by
      obtain ⟨q₁, -, rfl⟩ := map_eq_some_iff.1 hr
      rw [bytes_cons, bytes_nil, append_nil]
      exact if_neg (by omega)
    rw [hcounts]
    have hn : (addrs [⟨addr, 0, p, 0⟩]).Nodup := nodup_singleton addr
    exact h.appended Prod.snd (cons_ne_nil _ _) hn hd hr fun q' hs => ⟨hs.fed.flows _, by simp [Fifo.fed]⟩

theorem qpass {bs : List Block} {r : Int × Fifo} (hopen : s.q.closed = false) (hn : (addrs bs).Nodup)
    (hd : ∀ a ∈ addrs bs, a ∉ addrs s.q.bfirst ∧ a ∉ addrs s.held) (hr : s.q.qpass bs = some r) :
    Kept c { s with q := r.2, enqueued := s.enqueued ++ if s.q.limit ≤ s.q.len then [] else bytes bs } := by
  unfold Fifo.qpass at hr
  by_cases hfull : s.q.limit ≤ s.q.len
  · rw [if_pos hfull] at hr ⊢
    cases hr
    exact h.writes h.sound rfl rfl (append_nil _).symm h.apart
  rw [if_neg hfull, hopen, if_neg (by decide)] at hr
  rw [if_neg hfull]
  cases bs with
  | nil => cases hr
  | cons b bs =>
    exact h.appended Prod.snd (cons_ne_nil _ _) hn hd hr fun q' hs => ⟨(hs.flows _).fed, by simp [Fifo.fed]⟩

end Kept

theorem turn_kept {m : Mode} (hmsg : m.msg = false) {c : Bool} {s s' : Stream} {a : Act} (h : Kept c s)
    (hp : c = true → ∀ bs, a ≠ .qpass bs) (ho : a.Orderly s) (ht : turn m s a = some s') : Kept c s' := by
  unfold turn at ht
  split at ht
  case isFalse => cases ht
  case isTrue hown =>
    obtain ⟨hn, hd⟩ := hown
    cases a with
    | take len =>
      dsimp only [Act.exec] at ht
      split at ht
      · cases ht
      case isFalse hl =>
        cases ht
        exact h.take m len hl
    | putback =>
      obtain ⟨bs, hl, rfl⟩ := map_eq_some_iff.1 ht
      exact h.putback hmsg hl
    | qbread len block =>
      dsimp only [Act.exec] at ht
      split at ht
      · cases ht
      case isFalse hl =>
        cases ht
        exact h.qbread hmsg hl (fun x hx => (hd x hx).1) ho
    | qconsume len =>
      cases ht
      exact h.qconsume hmsg ho
    | qget =>
      cases ht
      exact h.qget ho
    | qbwrite b =>
      obtain ⟨r, hr, rfl⟩ := map_eq_some_iff.1 ht
      exact h.qbwrite (hd b.addr (mem_singleton_self _)) hr
    | qwrite p len sofar block =>
      obtain ⟨r, hr, rfl⟩ := map_eq_some_iff.1 ht
      exact h.qwrite hd hr
    | qproduce block p =>
      obtain ⟨r, hr, rfl⟩ := map_eq_some_iff.1 ht
      exact h.qproduce hd hr
    | qpass bs =>
      obtain ⟨r, hr, rfl⟩ := map_eq_some_iff.1 ht
      have hopen : s.q.closed = false := by
        rw [h.closed]
        exact Bool.eq_false_of_not_eq_true fun hc => hp hc bs rfl
      exact h.qpass hopen hn hd hr

theorem turn_inv {m : Mode} (hmsg : m.msg = false) {s s' : Stream} {a : Act} (h : Inv s)
    (ho : a.Orderly s) (ht : turn m s a = some s') : Inv s' :=
  inv_iff.2 (turn_kept hmsg (inv_iff.1 h) (by rintro ⟨⟩) ho ht)

def Fifo.stream (q : Fifo) : Stream := ⟨q, none, [], bytes q.bfirst⟩

theorem intact_always {m : Mode} {q : Fifo} (hmsg : m.msg = false) (h : Sound q)
    (hc : q.closed = false) (hn : q.noblock = false) {acts : List Act}
    (ho : Along (turn m) (fun s a => a.Orderly s) q.stream acts) : Always (turn m) Intact q.stream acts := by
  have hinv : Inv q.stream := ⟨h, hc, hn, Nat.zero_le _, fun a ha => absurd ha List.not_mem_nil, rfl⟩
  exact (ho.always (I := Inv) (fun s a s' hI hG ht => turn_inv hmsg hI hG ht) hinv).mono fun s hs => hs.intact

/-- Two bytes in one block, and one in another. -/
def twoAndOne : Fifo := ⟨⟨[⟨0, 0, [1, 2], 0⟩, ⟨1, 0, [3], 0⟩], 3, 3, 8, false, false, false, false⟩, some 1, 0, []⟩

theorem sound_twoAndOne : Sound twoAndOne := ⟨⟨by decide, by decide, fun _ => rfl⟩, by decide⟩

def coalescing : Mode := ⟨⟨false, false⟩, true⟩

theorem intact_always_twoAndOne : Always (turn coalescing) Intact twoAndOne.stream [.take 1, .putback, .qget] :=
  intact_always rfl sound_twoAndOne rfl rfl <|
    (along_cons rfl).2 ⟨trivial, (along_cons rfl).2 ⟨trivial, (along_cons rfl).2 ⟨.inl rfl, trivial⟩⟩⟩

/-- A `qget` while a `qread` of one byte copies: what is delivered is 1 and 3, and 2 is still queued. -/
theorem not_intact : ¬ ∀ (m : Mode) (q : Fifo) (acts : List Act), m.msg = false → Sound q →
    q.closed = false → q.noblock = false → Always (turn m) Intact q.stream acts := by
  intro hall
  have hlast := (hall coalescing twoAndOne [.take 1, .qget, .putback] rfl sound_twoAndOne rfl rfl).last rfl
  revert hlast
  unfold Intact
  decide

end Node9.Qio
