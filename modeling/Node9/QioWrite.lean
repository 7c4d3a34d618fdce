import Node9.QioBytes
import Node9.Lib.Steps

/-!
# Writing to a queue (`qio.c`)

`qwrite` and `qiwrite` cut the bytes into pieces of at most `max`, `Maxatomic` in the source, and queue a block for
each. A turn of the loop is a step. What the others do in the meantime to the queue is part of it: `others` until the
queue is locked, and the `naps` that the writer takes while the queue is over its limit, each with what is done to
the queue before it wakes up; a nap is `none` if `Sleep` raises an error. `placed` are the blocks that this writer has
put on the queue.

A block is dropped when it comes to a queue that is over its limit and does not block, and `qbwrite` counts it none
the less; and `qwrite` returns `len` also when a message was cut at `max`.
-/

namespace Node9.Qio
open Buf Steps List

structure Queue where
  bfirst : List Block
  len : Int
  dlen : Int
  limit : Int
  /-- `Qclosed`, `Qflow`, `Qstarve` of `state` -/
  closed : Bool
  flow : Bool
  starve : Bool
  noblock : Bool

/-- What does not change after `qopen` or `qbypass`. -/
structure Kind where
  /-- `Qmsg` -/
  msg : Bool
  bypass : Bool

structure Turn where
  /-- The address of the block, or nil. -/
  block : Option Nat
  others : Queue → Queue
  naps : List (Option (Queue → Queue))

def qnotfull (q : Queue) : Bool := q.len < q.limit || q.closed

inductive Out
  | returned
  | error
  | asleep
deriving DecidableEq

/-- Wait for the queue to get below the limit. -/
def flowControl (q : Queue) : List (Option (Queue → Queue)) → Out × Queue
  | [] => if q.noblock || qnotfull q then (.returned, q) else (.asleep, { q with flow := true })
  | nap :: naps =>
    if q.noblock || qnotfull q then (.returned, q)
    else
      match nap with
      | none => (.error, { q with flow := true })
      | some others => flowControl (others { q with flow := true }) naps

/-- `b` at the end of the list, to which `blast` points. -/
def Queue.link (q : Queue) (b : Block) : Queue :=
  { q with
    bfirst := q.bfirst ++ [b], len := int (q.len + b.BALLOC), dlen := int (q.dlen + b.BLEN), starve := false }

/-- Over the limit of a queue that does not block. -/
def Queue.drops (q : Queue) : Bool := q.len ≥ q.limit && q.noblock

/-- Besides the queue, the blocks that were put on it. What it returns is `BLEN(b)`. -/
def qbwrite (k : Kind) (t : Turn) (b : Block) (q : Queue) : Out × Queue × List Block :=
  if k.bypass then (.returned, q, [])
  else
    let q := t.others q
    if q.closed then (.error, q, [])
    else if q.drops then (.returned, q, [])
    else
      let r := flowControl (q.link b) t.naps
      (r.1, r.2, [b])

inductive Progress
  | writing (sofar : Int) (q : Queue) (placed : List Block)
  | returned (n : Int) (q : Queue) (placed : List Block)
  | raised (q : Queue) (placed : List Block)

section Write
variable (k : Kind) (max : Nat) (p : Bytes) (len : Int)

def pieceSize (sofar : Int) : Int := if len - sofar > max then max else len - sofar

def piece (sofar : Int) (addr : Nat) : Block :=
  ⟨addr, 0, (p.drop sofar.toNat).take (pieceSize max len sofar).toNat, 0⟩

/-- `while(sofar < len && (q->state & Qmsg) == 0)`, and then `return ret` -/
def again (sofar ret : Int) (q : Queue) (placed : List Block) : Progress :=
  if sofar < len ∧ k.msg = false then .writing sofar q placed else .returned ret q placed

/-- There is no step from a fault (an allocation of a negative size), nor to the end of a sleep that goes on. -/
def qwrite : Progress → Turn → Option Progress
  | .writing sofar q placed, t =>
    match t.block with
    | none => some (.raised q placed)
    | some addr =>
      if pieceSize max len sofar < 0 then none
      else
        let r := qbwrite k t (piece max p len sofar addr) q
        match r.1 with
        | .asleep => none
        | .error => some (.raised r.2.1 (placed ++ r.2.2))
        | .returned => some (again k len (sofar + pieceSize max len sofar) len r.2.1 (placed ++ r.2.2))
  | .returned _ _ _, _ => none
  | .raised _ _, _ => none

def qiwrite : Progress → Turn → Option Progress
  | .writing sofar q placed, t =>
    match t.block with
    | none => some (.returned sofar q placed)
    | some addr =>
      if pieceSize max len sofar < 0 then none
      else
        let b := piece max p len sofar addr
        let n := pieceSize max len sofar
        some (again k len (sofar + n) (sofar + n) ((t.others q).link b) (placed ++ [b]))
  | .returned _ _ _, _ => none
  | .raised _ _, _ => none

end Write

/-! ### What a turn does -/

section Turns
variable {k : Kind} {max : Nat} {p : Bytes} {len sofar : Int} {q : Queue} {placed : List Block} {t : Turn}
    {c : Progress}

/-- The block of this turn gets to the queue, unless an error is raised. -/
def Goes (k : Kind) (t : Turn) (q : Queue) : Prop := k.bypass = false ∧ (t.others q).drops = false

theorem pieceSize_le : pieceSize max len sofar ≤ len - sofar := by
  unfold pieceSize
  split <;> omega

theorem pieceSize_pos (hmax : 0 < max) (h : sofar < len) :
    0 < pieceSize max len sofar ∧ sofar + pieceSize max len sofar ≤ len := by
  unfold pieceSize
  split <;> omega

theorem length_piece (hp : p.length = len.toNat) (h0 : 0 ≤ sofar) (hn : 0 ≤ pieceSize max len sofar) (addr : Nat) :
    ((piece max p len sofar addr).data.length : Int) = pieceSize max len sofar := by
  have hle := @pieceSize_le max len sofar
  simp only [piece, length_take, length_drop]
  omega

theorem take_piece (h0 : 0 ≤ sofar) (hn : 0 ≤ pieceSize max len sofar) (addr : Nat) :
    p.take sofar.toNat ++ (piece max p len sofar addr).data = p.take (sofar + pieceSize max len sofar).toNat := by
  have hsum : (sofar + pieceSize max len sofar).toNat = sofar.toNat + (pieceSize max len sofar).toNat := by omega
  rw [hsum, take_add]
  rfl

theorem qbwrite_spec (k : Kind) (t : Turn) (b : Block) (q : Queue) :
    (qbwrite k t b q).1 = .returned → (Goes k t q ∧ (qbwrite k t b q).2.2 = [b]) ∨
      (¬ Goes k t q ∧ (qbwrite k t b q).2.2 = []) := by
  unfold qbwrite Goes
  intro h
  by_cases hb : k.bypass = true
  · right
    rw [if_pos hb]
    exact ⟨fun hg => by simp [hb] at hg, rfl⟩
  rw [if_neg hb] at h ⊢
  dsimp only at h ⊢
  by_cases hc : (t.others q).closed = true
  · rw [if_pos hc] at h
    cases h
  rw [if_neg hc] at h ⊢
  by_cases hd : (t.others q).drops = true
  · right
    rw [if_pos hd]
    exact ⟨fun hg => by simp [hd] at hg, rfl⟩
  · left
    rw [if_neg hd]
    exact ⟨⟨by simpa using hb, by simpa using hd⟩, rfl⟩

theorem qwrite_step (h : qwrite k max p len (.writing sofar q placed) t = some c) :
    (∃ q' bs, c = .raised q' bs) ∨ ∃ q' bs addr, 0 ≤ pieceSize max len sofar ∧
      ((Goes k t q ∧ bs = [piece max p len sofar addr]) ∨ (¬ Goes k t q ∧ bs = [])) ∧
      c = again k len (sofar + pieceSize max len sofar) len q' (placed ++ bs) := by
  unfold qwrite at h
  dsimp only at h
  split at h
  · cases h
    exact .inl ⟨q, placed, rfl⟩
  rename_i addr _
  split at h
  · cases h
  rename_i hneg
  split at h
  · cases h
  · cases h
    exact .inl ⟨_, _, rfl⟩
  · rename_i hret
    cases h
    exact .inr ⟨_, _, addr, Int.not_lt.1 hneg, qbwrite_spec _ _ _ _ hret, rfl⟩

end Turns

/-! ### What is returned -/

/-- What was placed are `n` bytes, the first ones of `p`. -/
def Exactly (p : Bytes) (n : Int) (placed : List Block) : Prop := n = total placed ∧ bytes placed = p.take n.toNat

def Room : Progress → Turn → Prop
  | .writing _ q _, t => (t.others q).drops = false
  | _, _ => True

theorem bytes_append (bp bp' : List Block) : bytes (bp ++ bp') = bytes bp ++ bytes bp' := flatMap_append

theorem total_append (bp bp' : List Block) : total (bp ++ bp') = total bp + total bp' := by
  rw [total, bytes_append, length_append]
  rfl

section Runs
variable {k : Kind} {max : Nat} {p : Bytes} {len sofar r n : Int} {q q' : Queue} {placed placed' : List Block}
  {t : Turn} {ts : List Turn} {c : Progress}

theorem run_raised (h : run (qwrite k max p len) (.raised q placed) ts = some c) : c = .raised q placed := by
  cases ts with
  | nil => cases h; rfl
  | cons t ts => cases h

theorem run_returned (h : run (qwrite k max p len) (.returned n q placed) ts = some c) :
    c = .returned n q placed ∧ ts = [] := by
  cases ts with
  | nil => cases h; exact ⟨rfl, rfl⟩
  | cons t ts => cases h

theorem qwrite_turn (h : run (qwrite k max p len) (.writing sofar q placed) (t :: ts) = some (.returned r q' placed')) :
    ∃ q₁ bs addr c, 0 ≤ pieceSize max len sofar ∧
      ((Goes k t q ∧ bs = [piece max p len sofar addr]) ∨ (¬ Goes k t q ∧ bs = [])) ∧
      qwrite k max p len (.writing sofar q placed) t = some c ∧
      c = again k len (sofar + pieceSize max len sofar) len q₁ (placed ++ bs) ∧
      run (qwrite k max p len) c ts = some (.returned r q' placed') := by
  obtain ⟨c, hc, hrun⟩ := run_cons.1 h
  rcases qwrite_step hc with ⟨q₁, bs, rfl⟩ | ⟨q₁, bs, addr, hn, hbs, rfl⟩
  · cases run_raised hrun
  · exact ⟨q₁, bs, addr, _, hn, hbs, hc, rfl, hrun⟩

theorem qwrite_bound (hmax : 0 < max) (hp : p.length = len.toNat) (h0 : 0 ≤ sofar) (hs : sofar < len)
    (h : run (qwrite k max p len) (.writing sofar q placed) ts = some (.returned r q' placed')) :
    r = len ∧ (total placed' : Int) + sofar ≤ total placed + len := by
  induction ts generalizing sofar q placed with
  | nil => cases h
  | cons t ts ih =>
    obtain ⟨q₁, bs, addr, c, hn, hbs, -, rfl, hrun⟩ := qwrite_turn h
    obtain ⟨hpos, hle⟩ := pieceSize_pos hmax hs
    have htot : (total bs : Int) ≤ pieceSize max len sofar := by
      rcases hbs with ⟨-, rfl⟩ | ⟨-, rfl⟩
      · rw [total_cons, total_nil, add_zero, Block.BLEN, length_piece hp h0 hn]
      · exact hn
    unfold again at hrun
    split at hrun
    · rename_i hmore
      obtain ⟨hr, htot'⟩ := ih (by omega) hmore.1 hrun
      rw [total_append] at htot'
      exact ⟨hr, by omega⟩
    · cases (run_returned hrun).1
      rw [total_append]
      exact ⟨rfl, by omega⟩

theorem qwrite_exact_iff (hmax : 0 < max) (hp : p.length = len.toNat) (h0 : 0 ≤ sofar) (hs : sofar < len)
    (hb : bytes placed = p.take sofar.toNat) (hm : k.msg = true → sofar = 0)
    (h : run (qwrite k max p len) (.writing sofar q placed) ts = some (.returned r q' placed')) :
    Exactly p r placed' ↔ k.bypass = false ∧ (k.msg = true → len ≤ max) ∧
      Along (qwrite k max p len) Room (.writing sofar q placed) ts := by
  induction ts generalizing sofar q placed with
  | nil => cases h
  | cons t ts ih =>
    obtain ⟨q₁, bs, addr, c, hn, hbs, hstep, rfl, hrun⟩ := qwrite_turn h
    obtain ⟨hpos, hle⟩ := pieceSize_pos hmax hs
    have htot : total placed = sofar.toNat := by
      rw [total, hb, length_take]
      omega
    rw [along_cons hstep]
    rcases hbs with ⟨⟨hby, hroom⟩, rfl⟩ | ⟨hstay, rfl⟩
    · have hb' : bytes (placed ++ [piece max p len sofar addr]) = p.take (sofar + pieceSize max len sofar).toNat := by
        rw [bytes_append, hb, bytes_cons, bytes_nil, append_nil, take_piece h0 hn]
      have hR : Room (.writing sofar q placed) t := hroom
      unfold again at hrun ⊢
      by_cases hmore : sofar + pieceSize max len sofar < len ∧ k.msg = false
      · rw [if_pos hmore] at hrun ⊢
        rw [ih (by omega) hmore.1 hb' (fun hmsg => by rw [hmsg] at hmore; cases hmore.2) hrun]
        constructor
        · rintro ⟨h1, h2, h3⟩
          exact ⟨h1, h2, hR, h3⟩
        · rintro ⟨h1, h2, -, h3⟩
          exact ⟨h1, h2, h3⟩
      rw [if_neg hmore] at hrun ⊢
      obtain ⟨hc, rfl⟩ := run_returned hrun
      cases hc
      have htot' : (total (placed ++ [piece max p len sofar addr]) : Int) = sofar + pieceSize max len sofar := by
        rw [total, hb', length_take]
        omega
      constructor
      · rintro ⟨hr, -⟩
        refine ⟨hby, fun hmsg => ?_, hR, trivial⟩
        have hz := hm hmsg
        unfold pieceSize at htot'
        split at htot' <;> omega
      rintro ⟨-, hmsg, -, -⟩
      have hall : sofar + pieceSize max len sofar = len := by
        by_contra hne
        have hk : k.msg = true := by
          by_contra hk
          exact hmore ⟨by omega, by simpa using hk⟩
        have hz := hm hk
        have hl := hmsg hk
        unfold pieceSize at hne
        split at hne <;> omega
      exact ⟨by omega, by rw [hb', hall]⟩
    · refine iff_of_false ?_ (fun hcond => hstay ⟨hcond.1, hcond.2.2.1⟩)
      rintro ⟨hr, -⟩
      rw [append_nil] at hrun
      unfold again at hrun
      split at hrun
      · rename_i hmore
        obtain ⟨hlen, hbound⟩ := qwrite_bound hmax hp (by omega) hmore.1 hrun
        omega
      · cases (run_returned hrun).1
        omega

theorem qwrite_empty (hp : p.length = 0)
    (h : run (qwrite k max p 0) (.writing 0 q []) ts = some (.returned r q' placed')) :
    Exactly p r placed' := by
  cases ts with
  | nil => cases h
  | cons t ts =>
    obtain ⟨q₁, bs, addr, c, hn, hbs, -, rfl, hrun⟩ := qwrite_turn h
    have hz : pieceSize max 0 0 = 0 := le_antisymm pieceSize_le hn
    have hnil : bytes bs = [] := by
      rcases hbs with ⟨-, rfl⟩ | ⟨-, rfl⟩
      · rw [length_eq_zero_iff.1 hp]
        simp [piece]
      · rfl
    unfold again at hrun
    rw [if_neg (by rw [hz]; simp)] at hrun
    cases (run_returned hrun).1
    rw [nil_append]
    exact ⟨by rw [total, hnil]; rfl, by rw [hnil]; rfl⟩

theorem qiwrite_ended (h : run (qiwrite k max p len) (.returned n q placed) ts = some c) :
    c = .returned n q placed := by
  cases ts with
  | nil => cases h; rfl
  | cons t ts => cases h

theorem qiwrite_exact (hp : p.length = len.toNat) (h0 : 0 ≤ sofar) (hs : sofar ≤ p.length)
    (hb : bytes placed = p.take sofar.toNat)
    (h : run (qiwrite k max p len) (.writing sofar q placed) ts = some (.returned r q' placed')) :
    Exactly p r placed' := by
  have hexact {sofar : Int} {placed : List Block} (h0 : 0 ≤ sofar) (hs : sofar ≤ p.length)
      (hb : bytes placed = p.take sofar.toNat) : Exactly p sofar placed := by
    refine ⟨?_, hb⟩
    rw [total, hb, length_take]
    omega
  induction ts generalizing sofar q placed with
  | nil => cases h
  | cons t ts ih =>
    obtain ⟨c, hc, hrun⟩ := run_cons.1 h
    dsimp only [qiwrite] at hc
    cases hblock : t.block with
    | none =>
      rw [hblock] at hc
      cases hc
      cases qiwrite_ended hrun
      exact hexact h0 hs hb
    | some addr =>
      rw [hblock] at hc
      dsimp only at hc
      split at hc
      · cases hc
      rename_i hneg
      have hn := Int.not_lt.1 hneg
      have hle := @pieceSize_le max len sofar
      have hb' : bytes (placed ++ [piece max p len sofar addr]) = p.take (sofar + pieceSize max len sofar).toNat := by
        rw [bytes_append, hb, bytes_cons, bytes_nil, append_nil, take_piece h0 hn]
      unfold again at hc
      split at hc
      · cases hc
        exact ih (by omega) (by omega) hb' hrun
      · cases hc
        cases qiwrite_ended hrun
        exact hexact (by omega) (by omega) hb'

end Runs

/-! ### Where the blocks are -/

def Progress.queue : Progress → Queue
  | .writing _ q _ | .returned _ q _ | .raised q _ => q

def Progress.placed : Progress → List Block
  | .writing _ _ placed | .returned _ _ placed | .raised _ placed => placed

/-- The others leave the list alone. -/
structure Alone (t : Turn) : Prop where
  others : ∀ q, (t.others q).bfirst = q.bfirst
  naps : ∀ others, some others ∈ t.naps → ∀ q, (others q).bfirst = q.bfirst

section Places
variable {k : Kind} {max : Nat} {p : Bytes} {len : Int} {q : Queue} {t : Turn} {ts : List Turn} {c : Progress}

theorem bfirst_flowControl {naps : List (Option (Queue → Queue))}
    (h : ∀ others, some others ∈ naps → ∀ q, (others q).bfirst = q.bfirst) (q : Queue) :
    (flowControl q naps).2.bfirst = q.bfirst := by
  induction naps generalizing q with
  | nil =>
    unfold flowControl
    split <;> rfl
  | cons nap naps ih =>
    unfold flowControl
    split
    · rfl
    · cases nap with
      | none => rfl
      | some others =>
        have hothers := h others mem_cons_self { q with flow := true }
        exact (ih (fun f hf => h f (mem_cons_of_mem _ hf)) _).trans hothers

theorem bfirst_qbwrite (ht : Alone t) (b : Block) :
    (qbwrite k t b q).2.1.bfirst = q.bfirst ++ (qbwrite k t b q).2.2 := by
  unfold qbwrite
  split
  · exact (append_nil _).symm
  dsimp only
  split
  · rw [ht.others, append_nil]
  · split
    · rw [ht.others, append_nil]
    · rw [bfirst_flowControl ht.naps]
      show (t.others q).bfirst ++ [b] = _
      rw [ht.others]

theorem qwrite_bfirst {bfirst : List Block} {c₀ : Progress} (ht : Alone t) (h₀ : c₀.queue.bfirst = bfirst ++ c₀.placed)
    (h : qwrite k max p len c₀ t = some c) : c.queue.bfirst = bfirst ++ c.placed := by
  cases c₀ with
  | returned => cases h
  | raised => cases h
  | writing sofar q placed =>
    change q.bfirst = bfirst ++ placed at h₀
    dsimp only [qwrite] at h
    split at h
    · cases h
      exact h₀
    split at h
    · cases h
    rename_i addr _ _
    have hq := bfirst_qbwrite (k := k) (q := q) ht (piece max p len sofar addr)
    rw [h₀, append_assoc] at hq
    split at h
    · cases h
    · cases h
      exact hq
    · unfold again at h
      split at h <;> cases h <;> exact hq

theorem qiwrite_bfirst {bfirst : List Block} {c₀ : Progress} (ht : Alone t)
    (h₀ : c₀.queue.bfirst = bfirst ++ c₀.placed) (h : qiwrite k max p len c₀ t = some c) :
    c.queue.bfirst = bfirst ++ c.placed := by
  cases c₀ with
  | returned => cases h
  | raised => cases h
  | writing sofar q placed =>
    change q.bfirst = bfirst ++ placed at h₀
    dsimp only [qiwrite] at h
    split at h
    · cases h
      exact h₀
    split at h
    · cases h
    cases h
    rename_i addr _ _
    have hq : ((t.others q).link (piece max p len sofar addr)).bfirst =
        bfirst ++ (placed ++ [piece max p len sofar addr]) := by
      rw [Queue.link, ht.others, h₀, append_assoc]
    unfold again
    split <;> exact hq

/-- If the others leave the list alone, it has the blocks of the writer behind what it had before. -/
def OnQueue (turn : Progress → Turn → Option Progress) : Prop :=
  ∀ q ts c, (∀ t ∈ ts, Alone t) → run turn (.writing 0 q []) ts = some c → c.queue.bfirst = q.bfirst ++ c.placed

theorem onQueue_of_step {turn : Progress → Turn → Option Progress} (hstep : ∀ {bfirst c₀ t c}, Alone t →
    c₀.queue.bfirst = bfirst ++ c₀.placed → turn c₀ t = some c → c.queue.bfirst = bfirst ++ c.placed) :
    OnQueue turn := by
  intro q ts c hts h
  have hbegin : (Progress.writing 0 q []).queue.bfirst = q.bfirst ++ (Progress.writing 0 q []).placed :=
    (append_nil _).symm
  generalize Progress.writing 0 q [] = c₀ at h hbegin
  induction ts generalizing c₀ with
  | nil =>
    cases h
    exact hbegin
  | cons t ts ih =>
    obtain ⟨c₁, h₁, hrun⟩ := run_cons.1 h
    have ht := forall_mem_cons.1 hts
    exact ih ht.2 c₁ hrun (hstep ht.1 hbegin h₁)

end Places

section
variable {k : Kind} {max : Nat} {p : Bytes} {len : Int}

/-- What the condition is for `qwrite`: nothing to write, or no bypass, no message that is too long, and room. -/
def Counts (k : Kind) (max : Nat) (p : Bytes) (len : Int) (q : Queue) (ts : List Turn) : Prop :=
  len = 0 ∨ (k.bypass = false ∧ (k.msg = true → len ≤ max) ∧ Along (qwrite k max p len) Room (.writing 0 q []) ts)

/-- For every queue, every length, every limit, and whatever the others do. -/
theorem write_counts (hmax : 0 < max) (hp : p.length = len.toNat) :
    (∀ q ts r q' placed, run (qwrite k max p len) (.writing 0 q []) ts = some (.returned r q' placed) →
      (Exactly p r placed ↔ Counts k max p len q ts)) ∧
    (∀ q ts r q' placed, run (qiwrite k max p len) (.writing 0 q []) ts = some (.returned r q' placed) →
      Exactly p r placed) ∧ OnQueue (qwrite k max p len) ∧ OnQueue (qiwrite k max p len) := by
  refine ⟨fun q ts r q' placed h => ?_, fun q ts r q' placed h => ?_, onQueue_of_step fun ht => qwrite_bfirst ht,
    onQueue_of_step fun ht => qiwrite_bfirst ht⟩
  · rcases lt_trichotomy len 0 with hneg | rfl | hpos
    · cases ts with
      | nil => cases h
      | cons t ts =>
        obtain ⟨_, _, _, _, hn, -⟩ := qwrite_turn h
        unfold pieceSize at hn
        split at hn <;> omega
    · exact iff_of_true (qwrite_empty hp h) (.inl rfl)
    · rw [qwrite_exact_iff hmax hp le_rfl hpos rfl (fun _ => rfl) h]
      exact ⟨.inr, fun hor => hor.resolve_left (by omega)⟩
  · exact qiwrite_exact hp le_rfl (by omega) rfl h

end

def Maxatomic : Nat := 32 * 1024

def emptyQueue : Queue := ⟨[], 0, 0, 1, false, false, true, true⟩

/-- Three bytes to an empty queue. -/
theorem write_counts_three :
    (∀ q ts r q' placed, run (qwrite ⟨true, false⟩ Maxatomic [1, 2, 3] 3) (.writing 0 q []) ts = some (.returned r q' placed) →
      (Exactly [1, 2, 3] r placed ↔ Counts ⟨true, false⟩ Maxatomic [1, 2, 3] 3 q ts)) ∧
    (∀ q ts r q' placed, run (qiwrite ⟨true, false⟩ Maxatomic [1, 2, 3] 3) (.writing 0 q []) ts =
      some (.returned r q' placed) → Exactly [1, 2, 3] r placed) ∧
    OnQueue (qwrite ⟨true, false⟩ Maxatomic [1, 2, 3] 3) ∧ OnQueue (qiwrite ⟨true, false⟩ Maxatomic [1, 2, 3] 3) :=
  write_counts (by decide) rfl

/-- A message of one byte more than `Maxatomic`. -/
theorem qwrite_cut : ¬ ∀ p ts r q' placed,
    run (qwrite ⟨true, false⟩ Maxatomic p (p.length : Int)) (.writing 0 emptyQueue []) ts = some
    (.returned r q' placed) →
      Exactly p r placed := by
  intro h
  generalize hp : List.replicate (Maxatomic + 1) (0 : UInt8) = p at h
  have hlen : p.length = Maxatomic + 1 := by rw [← hp, List.length_replicate]
  have hsize : pieceSize Maxatomic (p.length : Int) 0 = Maxatomic := by
    unfold pieceSize
    rw [if_pos (by omega)]
  have hstep : qwrite ⟨true, false⟩ Maxatomic p p.length (.writing 0 emptyQueue []) ⟨some 0, id, []⟩ =
      some (.returned p.length (emptyQueue.link (piece Maxatomic p p.length 0 0)) [piece Maxatomic p p.length 0 0]) := by
    dsimp only [qwrite]
    rw [hsize, if_neg (by decide)]
    show some (again _ _ _ _ _ _) = _
    rw [again, if_neg (by rintro ⟨-, hmsg⟩; cases hmsg)]
    rfl
  have hrun : run (qwrite ⟨true, false⟩ Maxatomic p p.length) (.writing 0 emptyQueue []) [⟨some 0, id, []⟩] = _ :=
    run_cons.2 ⟨_, hstep, rfl⟩
  obtain ⟨htot, -⟩ := h p _ _ _ _ hrun
  have hpiece := @length_piece Maxatomic p p.length 0 (by omega) le_rfl (by rw [hsize]; decide) 0
  rw [hsize] at hpiece
  rw [total_cons, total_nil, Nat.add_zero, Block.BLEN] at htot
  omega

end Node9.Qio
