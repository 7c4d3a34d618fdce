import Node9.QioStream

/-!
# Reading the console (`devcons.c`)

The event loop writes the lines that `readline` has completed to `lineq` and signals `line_ready`, and the processes
that read `cons` wait for that and read from `lineq`. `kbd.q` lets in one of them at a time, and `line_lock` keeps it
and the event loop apart, except while it waits. `lineq` is a queue of `qio.c`.
-/

namespace Node9.Cons.Read
open Buf Qio Option

/-- The event loop with a line: at the lock, at `qwrite`, in it until there is room, at the signal and at the unlock. -/
inductive Handler
  | idle
  | lock (line : Bytes)
  | qwrite (line : Bytes)
  | room
  | signal
  | unlock

/-- The process `p` that has `kbd.q`, in `consread` of `n` bytes: at the lock, at `uv_cond_wait`, in it, on its way out
of it, at `qread`, at the copy in it, and at the two unlocks. -/
inductive Reader
  | free
  | lock (p n : Nat)
  | wait (p n : Nat)
  | waiting (p n : Nat)
  | woken (p n : Nat)
  | qread (p n : Nat)
  | copy (p : Nat)
  | unlock (p : Nat)
  | qunlock (p : Nat)

/-- The line that is not in `lineq` yet. -/
def Handler.line : Handler → Bytes
  | .lock line => line
  | .qwrite line => line
  | _ => []

/-- `uv_cond_signal` -/
def Reader.signalled : Reader → Reader
  | .waiting p n => .woken p n
  | r => r

/-- `lines` lists the lines as they are completed. -/
structure St where
  lineq : Stream
  /-- `line_lock` is taken -/
  locked : Bool
  handler : Handler
  reader : Reader
  lines : List Bytes

inductive Act
  | line (line : Bytes)
  | lock
  | qwrite (block : Nat)
  | drained
  | signal
  | unlock
  | read (p n : Nat)
  | rlock
  | wait
  | spurious
  | relock
  | qread
  | copy
  | runlock
  | qunlock

/-- `qopen(2*1024, 0, nil, nil)` -/
def plain : Mode := ⟨⟨false, false⟩, false⟩

def St.init : St := ⟨(Fifo.qopen 2048).stream, false, .idle, .free, []⟩

def notfull (s : Stream) : Bool := s.q.noblock || qnotfull s.q.toQueue

def handle (s : St) : Act → Handler → Option St
  | .line line, .idle =>
    if line.length ≤ 1024 then some { s with handler := .lock line, lines := s.lines ++ [line] } else none
  | .lock, .lock line => if s.locked then none else some { s with locked := true, handler := .qwrite line }
  | .qwrite block, .qwrite line =>
    (turn plain s.lineq (.qwrite line line.length 0 (some block))).map fun q =>
      { s with lineq := q, handler := if notfull q then .signal else .room }
  | .drained, .room => if notfull s.lineq then some { s with handler := .signal } else none
  | .signal, .signal => some { s with handler := .unlock, reader := s.reader.signalled }
  | .unlock, .unlock => some { s with locked := false, handler := .idle }
  | _, _ => none

/-- What the readers do. A `qread` that finds nothing sleeps, and begins again. -/
def consread (s : St) : Act → Reader → Option St
  | .read p n, .free => some { s with reader := .lock p n }
  | .rlock, .lock p n => if s.locked then none else some { s with locked := true, reader := .wait p n }
  | .wait, .wait p n => some { s with locked := false, reader := .waiting p n }
  | .spurious, .waiting p n => some { s with reader := .woken p n }
  | .relock, .woken p n => if s.locked then none else some { s with locked := true, reader := .qread p n }
  | .qread, .qread p n =>
    (turn plain s.lineq (.take n)).map fun q =>
      { s with lineq := q, reader := if q.left.isSome then .copy p else .qread p n }
  | .copy, .copy p => (turn plain s.lineq .putback).map fun q => { s with lineq := q, reader := .unlock p }
  | .runlock, .unlock p => some { s with locked := false, reader := .qunlock p }
  | .qunlock, .qunlock _ => some { s with reader := .free }
  | _, _ => none

def step (s : St) (a : Act) : Option St := (handle s a s.handler).or (consread s a s.reader)

def Waiting (s : St) : Prop := ∃ p n, s.reader = .waiting p n

/-- A reader waits though `lineq` holds something, and nobody is about to wake it. -/
def Lost (s : St) : Prop := Waiting s ∧ s.lineq.q.bfirst ≠ [] ∧ s.handler ≠ .signal

/-- The event loop waits for room in `lineq`, with `line_lock`. -/
def Stuck (s : St) : Prop := s.handler = .room

/-- What was delivered, what is in `lineq` and what is about to be are the lines. -/
def InOrder (s : St) : Prop :=
  s.lineq.delivered ++ (bytes s.lineq.held ++ bytes s.lineq.q.bfirst) ++ s.handler.line = s.lines.flatten

/-- Nobody begins to wait while `lineq` holds something, and there is room in it for a line that is written. -/
def Act.Clear (s : St) : Act → Prop
  | .wait => s.lineq.q.bfirst = []
  | .qwrite _ => ∀ line, s.handler = .qwrite line → s.lineq.q.len + line.length < s.lineq.q.limit
  | _ => True

/-! ### What is done to `lineq` -/

variable {q q' : Stream} {line : Bytes} {block n : Nat} {s s' : St} {a : Act}

theorem flowControl_nil (q : Queue) :
    (flowControl q []).1 ≠ .error ∧ (flowControl q []).2.len = q.len ∧ (flowControl q []).2.limit = q.limit := by
  rw [flowControl]
  split
  · refine ⟨?_, rfl, rfl⟩
    intro h
    cases h
  · refine ⟨?_, rfl, rfl⟩
    intro h
    cases h

theorem piece_line (hline : line.length ≤ 1024) :
    pieceSize Maxatomic (line.length : Int) 0 = line.length ∧ ∀ b, piece Maxatomic line (line.length : Int) 0 b =
    ⟨b, 0, line, 0⟩ := by
  have hsize : pieceSize Maxatomic (line.length : Int) 0 = line.length := by
    have hatomic : Maxatomic = 32768 := rfl
    rw [pieceSize, if_neg (by omega), Int.sub_zero]
  refine ⟨hsize, fun b => ?_⟩
  rw [piece, hsize, Int.toNat_zero, List.drop_zero, Int.toNat_natCast, List.take_length]

theorem qwrite_spec (h : Inv q) (hline : line.length ≤ 1024)
    (ht : turn plain q (.qwrite line line.length 0 (some block)) = some q') :
    q'.enqueued = q.enqueued ++ line ∧ q'.q.len = int (q.q.len + line.length) ∧ q'.q.limit = q.q.limit := by
  unfold turn at ht
  split at ht
  case isFalse => cases ht
  case isTrue hown =>
    obtain ⟨r, hr, rfl⟩ := map_eq_some_iff.1 ht
    obtain ⟨hsize, hpiece⟩ := piece_line hline
    have hpos : ¬ pieceSize Maxatomic (line.length : Int) 0 < 0 := by
      rw [hsize]
      omega
    have hclosed : ¬ q.q.closed = true := by rw [h.closed]; decide
    have hdrops : ¬ q.q.drops = true := by rw [Queue.drops, h.noblock, Bool.and_false]; decide
    have hbypass : ¬ plain.bypass = true := by decide
    have haddr : (addrs [⟨block, 0, line, 0⟩]).Nodup := List.nodup_singleton block
    obtain ⟨q₁, happ, -, hq₁⟩ := h.sound.append (List.cons_ne_nil _ []) haddr fun x hx => (hown.2 x hx).1
    rw [Fifo.qwrite] at hr
    simp only [if_neg hpos, hpiece] at hr
    rw [Fifo.qbwrite, if_neg hbypass, if_neg hclosed, if_neg hdrops, happ] at hr
    cases hr
    obtain ⟨hout, hlen, hlimit⟩ := flowControl_nil q₁.fed.toQueue
    refine ⟨?_, ?_, ?_⟩
    · rw [hpiece]
      exact congrArg (q.enqueued ++ ·) (if_neg (by simp [hbypass, hout]))
    · refine hlen.trans ?_
      rw [hq₁]
      show int (q.q.len + (0 + line.length + 0 + 0 : Nat)) = _
      rw [zero_add]
      rfl
    · refine hlimit.trans ?_
      rw [hq₁]
      rfl

theorem taken_limit (q : Fifo) (n : Nat) : (q.taken plain n).2.limit = q.limit := by
  unfold Fifo.taken
  have hcoalesce : ¬ plain.coalesce = true := by decide
  simp only [if_neg hcoalesce]
  split
  · unfold Fifo.qwait
    split <;> rfl
  · rw [Fifo.first, if_neg hcoalesce]
    rfl

theorem putback_limit (q : Fifo) (k : Kind) (bs : List Block) : (q.putback k bs).limit = q.limit := by
  have hleft : (q.leftover k bs).limit = q.limit := by
    cases bs with
    | nil => rfl
    | cons b bs =>
      rw [Fifo.leftover]
      split <;> rfl
  rw [Fifo.putback, Fifo.restart]
  split <;> exact hleft

theorem take_spec (ht : turn plain q (.take n) = some q') : q'.enqueued = q.enqueued ∧ q'.q.limit = q.q.limit := by
  unfold turn Act.exec at ht
  split at ht
  · dsimp only at ht
    split at ht <;> cases ht
    exact ⟨rfl, taken_limit q.q n⟩
  · cases ht

theorem putback_spec (ht : turn plain q .putback = some q') : q'.enqueued = q.enqueued ∧ q'.q.limit = q.q.limit := by
  unfold turn at ht
  split at ht
  · obtain ⟨bs, -, rfl⟩ := map_eq_some_iff.1 ht
    exact ⟨rfl, putback_limit q.q _ bs⟩
  · cases ht

structure Good (s : St) : Prop where
  lineq : Inv s.lineq
  limit : s.lineq.q.limit = 2048
  order : s.lineq.enqueued ++ s.handler.line = s.lines.flatten
  short : s.handler.line.length ≤ 1024
  /-- only between `qwrite` and the signal -/
  served : Waiting s → s.lineq.q.bfirst ≠ [] → s.handler = .signal
  room : s.handler ≠ .room

theorem Good.inOrder (h : Good s) : InOrder s := by
  have hintact : s.lineq.delivered ++ (bytes s.lineq.held ++ bytes s.lineq.q.bfirst) = s.lineq.enqueued :=
    h.lineq.intact
  rw [InOrder, hintact]
  exact h.order

theorem Good.qwrite (h : Good s) (hh : s.handler = .qwrite line) (hroom : s.lineq.q.len + line.length < s.lineq.q.limit)
    (ht : turn plain s.lineq (.qwrite line line.length 0 (some block)) = some q') :
    Good { s with lineq := q', handler := if notfull q' then .signal else .room } := by
  have hline : s.handler.line = line := by rw [hh, Handler.line]
  have hshort : line.length ≤ 1024 := hline ▸ h.short
  obtain ⟨henqueued, hlen, hlimit⟩ := qwrite_spec h.lineq hshort ht
  have hlow : -2 ^ 31 ≤ s.lineq.q.len := by
    rw [h.lineq.sound.len]
    exact Int.le_bmod (by decide)
  have hfit : int (s.lineq.q.len + line.length) = s.lineq.q.len + line.length := by
    rw [h.limit] at hroom
    exact Int.bmod_eq_of_le (by omega) (by omega)
  have hnotfull : notfull q' = true := by
    rw [notfull, qnotfull, hlen, hlimit, hfit, decide_eq_true hroom, Bool.true_or, Bool.or_true]
  rw [if_pos hnotfull]
  refine ⟨@turn_inv plain rfl _ _ (.qwrite line line.length 0 (some block)) h.lineq trivial ht,
    hlimit.trans h.limit, ?_,
    zero_le, fun _ _ => rfl, nofun⟩
  rw [henqueued, ← h.order, hline]
  exact List.append_nil _

theorem handle_good (h : Good s) (hG : a.Clear s) (hs : handle s a s.handler = some s') : Good s' := by
  generalize hh : s.handler = hd at hs
  unfold handle at hs
  have horder := h.order
  have hshort := h.short
  have hserved := h.served
  rw [hh] at horder hshort hserved
  split at hs
  · -- a line is completed
    split at hs <;> cases hs
    rename_i hlen
    refine ⟨h.lineq, h.limit, ?_, hlen, fun hw hb => absurd (hserved hw hb) nofun, nofun⟩
    show s.lineq.enqueued ++ _ = (s.lines ++ [_]).flatten
    rw [List.flatten_append, ← horder, List.flatten_singleton, Handler.line, Handler.line, List.append_nil]
    all_goals nofun
  · split at hs <;> cases hs
    exact ⟨h.lineq, h.limit, horder, hshort, fun hw hb => absurd (hserved hw hb) nofun, nofun⟩
  · obtain ⟨q', ht, rfl⟩ := map_eq_some_iff.1 hs
    exact h.qwrite hh (hG _ hh) ht
  · exact absurd hh h.room
  · -- the reader that waits is woken
    cases hs
    refine ⟨h.lineq, h.limit, horder, zero_le, ?_, nofun⟩
    rintro ⟨p, n, hw⟩
    generalize s.reader = r at hw
    cases r <;> cases hw
  · cases hs
    exact ⟨h.lineq, h.limit, horder, zero_le, fun hw hb => absurd (hserved hw hb) nofun, nofun⟩
  · cases hs

theorem Good.reader {r : Reader} {b : Bool} (h : Good s) (hr : ∀ p n, r ≠ .waiting p n) :
    Good { s with reader := r, locked := b } :=
  ⟨h.lineq, h.limit, h.order, h.short, fun ⟨p, n, hw⟩ => absurd hw (hr p n), h.room⟩

theorem Good.reads {r : Reader} (act : Qio.Act) (h : Good s) (ho : act.Orderly s.lineq)
    (ht : turn plain s.lineq act = some q') (hq : q'.enqueued = s.lineq.enqueued ∧ q'.q.limit = s.lineq.q.limit)
    (hr : ∀ p n, r ≠ .waiting p n) : Good { s with lineq := q', reader := r } :=
  ⟨turn_inv rfl h.lineq ho ht, hq.2.trans h.limit, hq.1 ▸ h.order, h.short, fun ⟨p, n, hw⟩ => absurd hw (hr p n),
    h.room⟩

theorem consread_good (h : Good s) (hG : a.Clear s) (hs : consread s a s.reader = some s') : Good s' := by
  generalize s.reader = rd at hs
  unfold consread at hs
  split at hs
  · cases hs
    exact h.reader nofun
  · split at hs <;> cases hs
    exact h.reader nofun
  · -- it begins to wait
    cases hs
    exact ⟨h.lineq, h.limit, h.order, h.short, fun _ hb => absurd hG hb, h.room⟩
  · cases hs
    exact h.reader nofun
  · split at hs <;> cases hs
    exact h.reader nofun
  · obtain ⟨q', ht, rfl⟩ := map_eq_some_iff.1 hs
    refine h.reads (.take _) trivial ht (take_spec ht) fun p n => ?_
    split <;> nofun
  · obtain ⟨q', ht, rfl⟩ := map_eq_some_iff.1 hs
    exact h.reads .putback trivial ht (putback_spec ht) nofun
  · cases hs
    exact h.reader nofun
  · cases hs
    exact h.reader nofun
  · cases hs

theorem step_good (h : Good s) (hG : a.Clear s) (hs : step s a = some s') : Good s' := by
  rcases or_eq_some_iff.1 hs with hs | ⟨-, hs⟩
  · exact handle_good h hG hs
  · exact consread_good h hG hs

theorem good_init : Good St.init :=
  ⟨⟨Sound.qopen 2048, rfl, rfl, zero_le, fun _ ha => absurd ha List.not_mem_nil, rfl⟩, rfl, rfl, zero_le,
    fun _ hb => absurd rfl hb, nofun⟩

/-- No line is lost or waited for in vain, in every run in which nobody begins to wait while there is one and each of
them finds room. -/
theorem always_served (acts : List Act) (hG : Steps.Along step (fun s a => a.Clear s) St.init acts) :
    Steps.Always step (fun s => ¬ Lost s ∧ ¬ Stuck s ∧ InOrder s) St.init acts :=
  (hG.always (I := Good) (fun _ _ _ hI hG hs => step_good hI hG hs) good_init).mono fun _ h =>
    ⟨fun ⟨hw, hb, hsignal⟩ => hsignal (h.served hw hb), h.room, h.inOrder⟩

theorem always_served_line : Steps.Always step (fun s => ¬ Lost s ∧ ¬ Stuck s ∧ InOrder s) St.init
    [.read 1 8, .rlock, .wait, .line [97, 10], .lock, .qwrite 0, .signal, .unlock, .relock, .qread, .copy, .runlock,
    .qunlock] := by
  refine always_served _ fun s₁ h₁ => ⟨trivial, fun s₂ h₂ => ⟨trivial, fun s₃ h₃ => ?_⟩⟩
  cases h₁
  cases h₂
  cases h₃
  refine ⟨rfl, fun s₄ h₄ => ⟨trivial, fun s₅ h₅ => ⟨trivial, fun s₆ h₆ => ?_⟩⟩⟩
  cases h₄
  cases h₅
  refine ⟨fun line hline => ?_, fun s₇ _ => ⟨trivial, fun s₈ _ => ⟨trivial, fun s₉ _ => ⟨trivial, fun s₁₀ _ => ?_⟩⟩⟩⟩
  · cases hline
    exact (by decide : (0 : Int) + 2 < 2048)
  · exact ⟨trivial, fun _ _ => ⟨trivial, fun _ _ => ⟨trivial, fun _ _ => ⟨trivial, trivial⟩⟩⟩⟩

/-- A line is typed before anybody reads. -/
theorem not_served : ¬ ∀ acts : List Act, Steps.Always step (fun s => ¬ Lost s ∧ ¬ Stuck s ∧
    InOrder s) St.init acts := by
  intro h
  refine ((h [.line [97, 10], .lock, .qwrite 0, .signal, .unlock, .read 1 8, .rlock, .wait]).last rfl).1
    ⟨⟨1, 8, rfl⟩, ?_, nofun⟩
  exact List.cons_ne_nil _ _

end Node9.Cons.Read
