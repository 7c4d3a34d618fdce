import Node9.Devpipe

/-!
# Sessions of a pipe (`devpipe.c`)

The queue that a side reads keeps what was written to it until the side is closed, which empties it; from then on
nothing gets to it before the next session. When the last side is closed and the other was never opened, nobody has
emptied its queue, and `qreopen` does not.
-/

namespace Node9.Devpipe
open Buf Qio Steps Function List Option

namespace Side
variable {d d' : Side}

@[simp] theorem other_other : d.other.other = d := by
  rcases d with _ | _ <;> rfl

@[simp] theorem other_ne : d.other ≠ d := by
  rcases d with _ | _ <;> rintro ⟨⟩

theorem eq_of_ne_other (h : d' ≠ d.other) : d' = d := by
  rcases d with _ | _
  · rcases d' with _ | _
    · rfl
    · exact absurd rfl h
  · rcases d' with _ | _
    · exact absurd rfl h
    · rfl

end Side

section Queue
variable {q : Fifo} {b : Block} {rest : List Block}

theorem taken_empty (h : q.bfirst = []) (len : Nat) : q.taken mode len = q.qwait := by
  simp [Fifo.taken, mode, h]

theorem taken_cons (h : q.bfirst = b :: rest) (len : Nat) :
    q.taken mode len = (.data (bl2mem [b] len), q.pop b rest) := by
  simp [Fifo.taken, Fifo.first, mode, h]

theorem qwait_closed {α : Type} (h : q.closed = true) : (q.qwait : Got α × Fifo).2 = { q with eof := q.eof + 1 } := by
  simp [Fifo.qwait, h]

theorem qwait_eof {α : Type} (h : q.closed = true) (he : q.err = [] ∨ q.err = Ehungup) :
    (q.qwait : Got α × Fifo).1 = if q.eof < 3 then .eof else .error := by
  have hno : ¬ (q.err ≠ [] ∧ q.err ≠ Ehungup) := by
    rintro ⟨hnil, hhung⟩
    exact he.elim hnil hhung
  rw [Fifo.qwait, if_pos h]
  dsimp only
  by_cases hlt : q.eof < 3
  · rw [if_pos hlt, if_neg (not_or.2 ⟨by omega, hno⟩)]
  · rw [if_neg hlt, if_pos (.inl (by omega))]

theorem qbread_empty (h : q.bfirst = []) (len : Nat) (block : Option Nat) :
    q.qbread mode.toKind len block = q.qwait := by
  unfold Fifo.qbread
  rw [h]

theorem qbread_cons (h : q.bfirst = b :: rest) (len addr : Nat) :
    ∃ nb, (q.qbread mode.toKind len (some addr)).1 = .data nb := by
  unfold Fifo.qbread
  rw [h]
  dsimp only
  split
  · exact ⟨_, rfl⟩
  · exact ⟨_, rfl⟩

theorem qbwrite_closed (h : q.closed = true) (b : Block) : q.qbwrite mode.toKind b = some (.error, q) := by
  simp [Fifo.qbwrite, mode, h]

theorem qwrite_cases {p : Bytes} {len sofar : Int} {block : Option Nat} {r : Out × Fifo}
    (h : q.qwrite mode.toKind p len sofar block = some r) :
    r = (.error, q) ∨ ∃ b, q.qbwrite mode.toKind b = some r := by
  unfold Fifo.qwrite at h
  split at h
  · exact .inl (Option.some.inj h).symm
  · split at h
    · cases h
    · exact .inr ⟨_, h⟩

theorem qwrite_closed (h : q.closed = true) {p : Bytes} {len sofar : Int} {block : Option Nat} {r : Out × Fifo}
    (hr : q.qwrite mode.toKind p len sofar block = some r) : r = (.error, q) := by
  rcases qwrite_cases hr with rfl | ⟨b, hb⟩
  · rfl
  · exact (Option.some.inj ((qbwrite_closed h b).symm.trans hb)).symm

theorem append_err {q' : Fifo} {bs : List Block} (h : q.append bs = some q') : q'.err = q.err := by
  unfold Fifo.append at h
  split at h
  · cases h
    rfl
  · obtain ⟨bfirst, -, h⟩ := bind_eq_some_iff.1 h
    cases h
    rfl

theorem restart_err (q : Fifo) (bound : Int) : (q.restart bound).err = q.err := by
  unfold Fifo.restart
  split <;> rfl

theorem qwait_err {α : Type} (q : Fifo) : (q.qwait : Got α × Fifo).2.err = q.err := by
  unfold Fifo.qwait
  split <;> rfl

theorem qbwrite_err {r : Out × Fifo} (h : q.qbwrite mode.toKind b = some r) : r.2.err = q.err := by
  unfold Fifo.qbwrite at h
  split at h
  · cases h
    rfl
  split at h
  · cases h
    rfl
  split at h
  · cases h
    rfl
  obtain ⟨q', happ, rfl⟩ := map_eq_some_iff.1 h
  show q'.err = q.err
  exact append_err happ

end Queue

/-- What the calls of a pipe do to a queue. -/
inductive Use : Qio.Act → Prop
  | take (len : Nat) : Use (.take len)
  | putback : Use .putback
  | qbread (len : Nat) (block : Option Nat) : Use (.qbread len block)
  | qbwrite (b : Block) : Use (.qbwrite b)
  | qwrite (p : Bytes) (len sofar : Int) (block : Option Nat) : Use (.qwrite p len sofar block)

theorem turn_exec {m : Mode} {s t : Stream} {a : Qio.Act} (h : turn m s a = some t) : a.exec m s = some t := by
  unfold turn at h
  split at h
  · exact h
  · cases h

theorem turn_err {s t : Stream} {a : Qio.Act} (hu : Use a) (ht : turn mode s a = some t) : t.q.err = s.q.err := by
  have ht := turn_exec ht
  cases hu with
  | take len =>
    dsimp only [Qio.Act.exec] at ht
    split at ht
    · cases ht
    cases ht
    rcases hq : s.q.bfirst with _ | ⟨b, rest⟩
    · rw [taken_empty hq, qwait_err]
    · rw [taken_cons hq]
      rfl
  | putback =>
    obtain ⟨bs, -, rfl⟩ := map_eq_some_iff.1 ht
    rcases bs with _ | ⟨b, bs⟩
    · exact restart_err _ _
    · exact restart_err _ _
  | qbread len block =>
    dsimp only [Qio.Act.exec] at ht
    split at ht
    · cases ht
    cases ht
    show (s.q.qbread mode.toKind len block).2.err = s.q.err
    unfold Fifo.qbread
    split
    · exact qwait_err _
    dsimp only
    split_ifs
    · exact restart_err _ _
    · rcases block with _ | addr
      · rfl
      · exact restart_err _ _
    · exact restart_err _ _
  | qbwrite b =>
    obtain ⟨r, hr, rfl⟩ := map_eq_some_iff.1 ht
    exact qbwrite_err hr
  | qwrite p len sofar block =>
    obtain ⟨r, hr, rfl⟩ := map_eq_some_iff.1 ht
    rcases qwrite_cases hr with rfl | ⟨b, hb⟩
    · rfl
    · exact qbwrite_err hb

theorem turn_left {s t : Stream} {a : Qio.Act} (hu : Use a) (ht : turn mode s a = some t)
    (hread : ∀ len, a ≠ .take len) (hput : a ≠ .putback) : t.left = s.left := by
  have ht := turn_exec ht
  cases hu with
  | take len => exact absurd rfl (hread len)
  | putback => exact absurd rfl hput
  | qbread len block =>
    dsimp only [Qio.Act.exec] at ht
    split at ht
    · cases ht
    · cases ht
      rfl
  | qbwrite b =>
    obtain ⟨r, -, rfl⟩ := map_eq_some_iff.1 ht
    rfl
  | qwrite p len sofar block =>
    obtain ⟨r, -, rfl⟩ := map_eq_some_iff.1 ht
    rfl

/-- The queue of a side that was closed. -/
structure Gone (s : Stream) : Prop where
  sound : Sound s.q
  closed : s.q.closed = true
  noblock : s.q.noblock = false
  empty : s.q.bfirst = []
  left : s.left = none
  order : s.delivered <+: s.enqueued

theorem Gone.turn {s t : Stream} {a : Qio.Act} (h : Gone s) (hu : Use a) (ht : turn mode s a = some t) : Gone t := by
  have ht := turn_exec ht
  have hleft : ¬ s.left.isSome = true := by rw [h.left]; exact Bool.false_ne_true
  cases hu with
  | take len =>
    dsimp only [Qio.Act.exec] at ht
    rw [if_neg hleft, taken_empty h.empty] at ht
    obtain ⟨hget, -⟩ := Reads.qwait (α := Bytes × List Block) h.sound
    rw [hget, qwait_closed h.closed] at ht
    cases ht
    refine ⟨h.sound.congr rfl rfl rfl rfl, h.closed, h.noblock, h.empty, rfl, ?_⟩
    exact (append_nil s.delivered).symm ▸ h.order
  | putback =>
    obtain ⟨bs, hbs, -⟩ := map_eq_some_iff.1 ht
    cases h.left.symm.trans hbs
  | qbread len block =>
    dsimp only [Qio.Act.exec] at ht
    rw [if_neg hleft, qbread_empty h.empty] at ht
    obtain ⟨hget, -⟩ := Reads.qwait (α := Block) h.sound
    rw [hget, qwait_closed h.closed] at ht
    cases ht
    refine ⟨h.sound.congr rfl rfl rfl rfl, h.closed, h.noblock, h.empty, h.left, ?_⟩
    exact (append_nil s.delivered).symm ▸ h.order
  | qbwrite b =>
    obtain ⟨r, hr, rfl⟩ := map_eq_some_iff.1 ht
    cases (qbwrite_closed h.closed b).symm.trans hr
    exact ⟨h.sound, h.closed, h.noblock, h.empty, h.left, h.order.trans (prefix_append ..)⟩
  | qwrite p len sofar block =>
    obtain ⟨r, hr, rfl⟩ := map_eq_some_iff.1 ht
    obtain rfl := qwrite_closed h.closed hr
    exact ⟨h.sound, h.closed, h.noblock, h.empty, h.left, h.order.trans (prefix_append ..)⟩

/-- `c`: its queue was hung up or closed, `sh`: it was closed. -/
structure End.Good (c sh : Bool) (e : End) : Prop where
  held : e.stream.left.isSome = e.reader.isSome
  err : e.stream.q.err = [] ∨ e.stream.q.err = Ehungup
  kept : sh = false → Kept c e.stream
  gone : sh = true → Gone e.stream

namespace End.Good
variable {c sh : Bool} {e : End} (h : e.Good c sh)
include h

theorem turn {a : Qio.Act} {t : Stream} {r : Option Nat} (hu : Use a) (ho : a.Orderly e.stream)
    (ht : turn mode e.stream a = some t) (hr : t.left.isSome = r.isSome) : (⟨t, r⟩ : End).Good c sh := by
  have hpass : c = true → ∀ bs, a ≠ .qpass bs := by
    rintro - bs rfl
    cases hu
  exact ⟨hr, (turn_err hu ht).symm ▸ h.err, fun hs => turn_kept rfl (h.kept hs) hpass ho ht,
    fun hs => (h.gone hs).turn hu ht⟩

theorem sound : Sound e.stream.q := by
  rcases sh with _ | _
  · exact (h.kept rfl).sound
  · exact (h.gone rfl).sound

theorem noblock : e.stream.q.noblock = false := by
  rcases sh with _ | _
  · exact (h.kept rfl).noblock
  · exact (h.gone rfl).noblock

theorem order : e.stream.delivered <+: e.stream.enqueued := by
  rcases sh with _ | _
  · exact ⟨_, (h.kept rfl).intact⟩
  · exact (h.gone rfl).order

theorem closed (hc : c = true) : e.stream.q.closed = true := by
  rcases sh with _ | _
  · exact (h.kept rfl).closed.trans hc
  · exact (h.gone rfl).closed

theorem left (hr : e.reader = none) : e.stream.left = none := by
  have hheld := h.held
  rw [hr] at hheld
  exact isNone_iff_eq_none.1 (isSome_eq_false_iff.1 hheld)

theorem qhangup : (e.map (Flow.qhangup [])).Good true sh := by
  refine ⟨h.held, .inr rfl, fun hs => ?_, fun hs => ?_⟩
  · obtain ⟨hsound, -, hnoblock, hone, hapart, hintact⟩ := h.kept hs
    exact ⟨hsound.congr rfl rfl rfl rfl, rfl, hnoblock, hone, hapart, hintact⟩
  · obtain ⟨hsound, -, hnoblock, hempty, hleft, horder⟩ := h.gone hs
    exact ⟨hsound.congr rfl rfl rfl rfl, rfl, hnoblock, hempty, hleft, horder⟩

theorem qclose (hr : e.reader = none) : (e.map Fifo.qclose).Good true true :=
  ⟨h.held, .inr rfl, by rintro ⟨⟩, fun _ => ⟨.empty rfl rfl rfl, rfl, rfl, rfl, h.left hr, h.order⟩⟩

theorem reopen (hr : e.reader = none) (hb : bytes e.stream.q.bfirst = []) : e.reopen.Good false false := by
  have hheld : e.reopen.stream.held = [] := by
    show (e.stream.left.getD []) = []
    rw [h.left hr]
    rfl
  refine ⟨h.held, h.err, fun _ => ?_, by rintro ⟨⟩⟩
  refine ⟨h.sound.congr rfl rfl rfl rfl, rfl, h.noblock, ?_, ?_, ?_⟩
  · rw [hheld]
    exact zero_le
  · rw [hheld]
    exact fun a ha => absurd ha not_mem_nil
  · unfold Intact
    rw [hheld]
    exact hb

end End.Good

section Channels
variable {s s' : Pipe} {i j : Nat} {d : Side} {c : Chan} {x : Option Chan}

theorem side_eq_some : s.side i = some d ↔ ∃ c, s.chan i = some c ∧ c.side = some d := bind_eq_some_iff

theorem chan_eq_some : s.chan i = some c ↔ s.chans[i]? = some (some c) := join_eq_some_iff

theorem opens_pos (h : s.side i = some d) : 0 < s.opens d := by
  obtain ⟨c, hc, hd⟩ := side_eq_some.1 h
  refine countP_pos_iff.2 ⟨some c, mem_of_getElem? (chan_eq_some.1 hc), ?_⟩
  exact decide_eq_true hd

theorem side_set_ne (hch : s'.chans = s.chans.set i x) (h : j ≠ i) : s'.side j = s.side j := by
  rw [Pipe.side, Pipe.side, Pipe.chan, Pipe.chan, hch, List.getElem?_set_ne h.symm]

theorem side_append (hch : s'.chans = s.chans ++ [x]) (h : s.side i = some d) : s'.side i = some d := by
  obtain ⟨c, hc, hd⟩ := side_eq_some.1 h
  have hget := chan_eq_some.1 hc
  have hlt : i < s.chans.length := by
    obtain ⟨hlt, -⟩ := List.getElem?_eq_some_iff.1 hget
    exact hlt
  refine side_eq_some.2 ⟨c, chan_eq_some.2 ?_, hd⟩
  rw [hch, List.getElem?_append_left hlt, hget]

theorem opens_set (hc : s.chan i = some c) (hch : s'.chans = s.chans.set i x) (d : Side) :
    s'.opens d + (if c.side = some d then 1 else 0) = s.opens d + if x.bind Chan.side = some d then 1 else 0 := by
  obtain ⟨hlt, hget⟩ := List.getElem?_eq_some_iff.1 (chan_eq_some.1 hc)
  have hle : c.side = some d → 1 ≤ s.opens d := fun hd => opens_pos (side_eq_some.2 ⟨c, hc, hd⟩)
  have hcount := countP_set (p := fun c => decide (c.bind Chan.side = some d)) (a := x) hlt
  rw [hget] at hcount
  simp only [decide_eq_true_eq] at hcount
  have hc' : (some c).bind Chan.side = c.side := rfl
  rw [hc'] at hcount
  rw [Pipe.opens, hch, hcount]
  by_cases hd : c.side = some d
  · have hone := hle hd
    rw [if_pos hd, Pipe.opens] at *
    omega
  · rw [if_neg hd]
    rfl

def Pipe.held (s : Pipe) : Nat := s.chans.countP Option.isSome

theorem held_set (hc : s.chan i = some c) (hch : s'.chans = s.chans.set i x) :
    s'.held + 1 = s.held + if x.isSome then 1 else 0 := by
  obtain ⟨hlt, hget⟩ := List.getElem?_eq_some_iff.1 (chan_eq_some.1 hc)
  have hpos : 0 < s.held := countP_pos_iff.2 ⟨some c, mem_of_getElem? (chan_eq_some.1 hc), rfl⟩
  have hcount := countP_set (p := Option.isSome) (a := x) hlt
  have hsome : (some c).isSome = true := rfl
  rw [hget, if_pos hsome] at hcount
  rw [Pipe.held, hch, hcount]
  unfold Pipe.held at *
  omega

theorem opens_open {c' : Chan} (hc : s.chan i = some c) (hno : c.side = none) (hch : s'.chans = s.chans.set i (some c'))
    (d : Side) : s'.opens d = s.opens d + if c'.side = some d then 1 else 0 := by
  have hopens := opens_set hc hch d
  rw [hno, if_neg (some_ne_none d).symm, add_zero] at hopens
  exact hopens

theorem opens_close (hc : s.chan i = some c) (hch : s'.chans = s.chans.set i none) (d : Side) :
    s'.opens d + (if c.side = some d then 1 else 0) = s.opens d := by
  have hopens := opens_set hc hch d
  rw [Option.bind_none, if_neg (some_ne_none d).symm, add_zero] at hopens
  exact hopens

end Channels

structure Inv (s : Pipe) : Prop where
  ref : s.ref = s.held + if s.closing.isSome then 1 else 0
  qref : ∀ d, s.qref d = s.opens d
  reader : ∀ d i, (s.q d).reader = some i → s.side i = some d
  good : ∀ d, (s.q d).Good (s.hung d) (s.shut d)
  closing : ∀ d, s.closing = some d → s.qref d = 0
  idle : s.closing = none → (∀ d, s.qref d = 0) → ∀ d, bytes (s.q d).stream.q.bfirst = []

namespace Inv
variable {s s' : Pipe} {i : Nat} {c : Chan} {d x : Side} {e : End}

theorem attach (user : Bytes) : Inv (pipeattach user) := by
  refine ⟨rfl, fun d => rfl, by rintro d i ⟨⟩, fun d => ⟨rfl, .inl rfl, fun _ => ?_, by rintro ⟨⟩⟩, by rintro d ⟨⟩,
    fun _ _ d => rfl⟩
  exact ⟨.qopen _, rfl, rfl, zero_le, fun a ha => absurd ha not_mem_nil, rfl⟩

section
variable (h : Inv s)
include h

theorem qref_pos (hi : s.side i = some d) : 0 < s.qref d := by
  have hpos := opens_pos hi
  rw [h.qref d]
  omega

theorem qref_nonneg (d : Side) : 0 ≤ s.qref d := by
  rw [h.qref d]
  exact Int.natCast_nonneg _

theorem reader_none (hd : s.qref d = 0) : (s.q d).reader = none := by
  rcases hr : (s.q d).reader with _ | i
  · rfl
  · have hpos := h.qref_pos (h.reader d i hr)
    omega

theorem of_onEnd (hi : s.side i = some x) (hr : ∀ j, e.reader = some j → s.side j = some d)
    (hg : e.Good (s.hung d) (s.shut d)) : Inv { s with q := update s.q d e } := by
  refine ⟨h.ref, h.qref, fun d' j hj => ?_, fun d' => ?_, h.closing, fun _ hzero => ?_⟩
  · dsimp only at hj
    by_cases hd : d' = d
    · subst hd
      rw [update_self] at hj
      exact hr j hj
    · rw [update_of_ne hd] at hj
      exact h.reader d' j hj
  · show (update s.q d e d').Good (s.hung d') (s.shut d')
    by_cases hd : d' = d
    · subst hd
      rw [update_self]
      exact hg
    · rw [update_of_ne hd]
      exact h.good d'
  · have hpos := h.qref_pos hi
    have hx : s.qref x = 0 := hzero x
    omega

theorem of_onQueue {a : Qio.Act} {r : Stream → Option Nat} (hi : s.side i = some x) (hu : Use a)
    (ho : a.Orderly (s.q d).stream) (hleft : ∀ t, turn mode (s.q d).stream a = some t → t.left.isSome = (r t).isSome)
    (hr : ∀ t j, r t = some j → s.side j = some d) (ht : onQueue s d a r = some s') : Inv s' := by
  obtain ⟨e, he, rfl⟩ := map_eq_some_iff.1 ht
  obtain ⟨t, hturn, rfl⟩ := map_eq_some_iff.1 he
  exact h.of_onEnd hi (hr t) ((h.good d).turn hu ho hturn (hleft t hturn))

theorem of_walk (names : List Bytes) : Inv (pipewalk s c names) := by
  unfold pipewalk
  split
  · exact h
  case h_2 f hf =>
    refine ⟨?_, fun d => ?_, fun d j hj => ?_, h.good, h.closing, h.idle⟩
    · have hheld : (Pipe.held { s with ref := s.ref + 1, chans := s.chans ++ [some ⟨f, false⟩] }) = s.held + 1 :=
        countP_append
      have href := h.ref
      rw [hheld]
      show s.ref + 1 = _
      rw [href]
      push_cast
      omega
    · have hnot : (⟨f, false⟩ : Chan).side = none := by
        rcases f with _ | d
        · rfl
        · rfl
      have hopens : Pipe.opens { s with ref := s.ref + 1, chans := s.chans ++ [some ⟨f, false⟩] } d = s.opens d := by
        unfold Pipe.opens
        rw [countP_append, countP_singleton]
        simp [hnot]
      rw [hopens]
      exact h.qref d
    · exact side_append rfl (h.reader d j hj)

theorem set_open {c' : Chan} {qref : Side → Int} (hc : s.chan i = some c) (hno : c.side = none)
    (hq : ∀ d, qref d = s.qref d + if c'.side = some d then 1 else 0)
    (hcl : s.closing = none ∨ c'.side = none) : Inv { s with qref := qref, chans := s.chans.set i (some c') } := by
  have hnot : s.side i = none := by
    rw [Pipe.side, hc]
    exact hno
  have hle : ∀ d, s.qref d ≤ qref d := fun d => by
    rw [hq d]
    split_ifs <;> omega
  refine ⟨?_, fun d => ?_, fun d j hj => ?_, h.good, fun d hd => ?_, fun hn hzero => ?_⟩
  · have hheld : Pipe.held { s with qref := qref, chans := s.chans.set i (some c') } + 1 = _ := held_set hc rfl
    have hsome : (some c').isSome = true := rfl
    rw [if_pos hsome] at hheld
    rw [Nat.add_right_cancel hheld]
    exact h.ref
  · have hopens : Pipe.opens { s with qref := qref, chans := s.chans.set i (some c') } d = _ :=
      opens_open hc hno rfl d
    rw [hopens, Nat.cast_add, ← h.qref d, Nat.cast_ite]
    exact hq d
  · have hj' := h.reader d j hj
    have hne : j ≠ i := by
      rintro rfl
      cases hnot.symm.trans hj'
    rw [side_set_ne rfl hne, hj']
  · rcases hcl with hcl | hcl
    · cases hcl.symm.trans hd
    · have hzero : qref d = 0 := by
        rw [hq d, h.closing d hd, hcl]
        rfl
      exact hzero
  · refine h.idle hn fun d => ?_
    have hd : qref d = 0 := hzero d
    have hnonneg := h.qref_nonneg d
    have hled := hle d
    omega

theorem of_open (hc : s.chan i = some c) (hno : c.copen = false) {eve up : Bytes} {omode : Nat}
    (ho : pipeopen eve s i c up omode = some s') : Inv s' := by
  have hside : c.side = none := by
    unfold Chan.side
    rw [hno]
    split <;> rfl
  unfold pipeopen at ho
  split at ho
  case h_1 hdir =>
    have hdir' : Chan.side { c with copen := true } = none := by
      unfold Chan.side
      rw [hdir]
    split at ho
    · cases ho
      exact h
    cases ho
    have hq : ∀ d, s.qref d = s.qref d + if Chan.side { c with copen := true } = some d then 1 else 0 := by
      intro d
      rw [hdir']
      exact (Int.add_zero _).symm
    exact h.set_open hc hside hq (.inr hdir')
  case h_2 d hd =>
    have hdata : Chan.side { c with copen := true } = some d := by
      unfold Chan.side
      rw [hd]
      rfl
    split at ho
    · cases ho
      exact h
    split at ho
    · cases ho
    case isFalse hcl =>
      have hnone : s.closing = none := not_isSome_iff_eq_none.1 hcl
      split at ho
      · cases ho
        refine h.set_open hc hside (fun d' => ?_) (.inl hnone)
        rw [hdata]
        by_cases hd' : d' = d
        · subst hd'
          rw [update_self, if_pos rfl]
        · rw [update_of_ne hd', if_neg fun he => hd' (Option.some.inj he).symm, Int.add_zero]
      · cases ho
        exact h

end

theorem both_zero {qref : Side → Int} (h : qref .data0 = 0 ∧ qref .data1 = 0) : ∀ d, qref d = 0
  | .data0 => h.1
  | .data1 => h.2

theorem of_release (href : s.ref = s.held + 1) (hqref : ∀ d, s.qref d = s.opens d)
    (hreader : ∀ d i, (s.q d).reader = some i → s.side i = some d) (hgood : ∀ d, (s.q d).Good (s.hung d) (s.shut d))
    (hcl : s.closing = none) (hidle : (∀ d, s.qref d = 0) → ∀ d, bytes (s.q d).stream.q.bfirst = []) :
    Inv (release s) := by
  have hcount : s.ref - 1 = s.held + if s.closing.isSome then 1 else 0 := by
    rw [href, hcl]
    exact Int.add_sub_cancel _ _
  unfold release
  split
  case isTrue hboth =>
    have hzero := both_zero hboth
    have hnone : ∀ d, (s.q d).reader = none := fun d => by
      rcases hr : (s.q d).reader with _ | i
      · rfl
      · have hpos := opens_pos (hreader d i hr)
        have hopens := hqref d
        rw [hzero d] at hopens
        omega
    refine ⟨hcount, hqref, hreader, fun d => ?_, fun d hd => hzero d, fun _ _ => hidle hzero⟩
    have hhung : Pipe.hung { s with
        ref := s.ref - 1, q := fun d => (s.q d).reopen, shut := fun _ => false } d = false := by
      simp [Pipe.hung, hcl]
    rw [hhung]
    exact (hgood d).reopen (hnone d) (hidle hzero d)
  case isFalse hboth =>
    refine ⟨hcount, hqref, hreader, hgood, fun d hd => ?_, fun _ hzero => ?_⟩
    · cases hcl.symm.trans hd
    · exact absurd ⟨hzero .data0, hzero .data1⟩ hboth

section
variable (h : Inv s)
include h

theorem of_close (hc : s.chan i = some c) (hcl : s.closing = none) (hr : ∀ d, (s.q d).reader ≠ some i) :
    Inv (pipeclose s i c) := by
  have hreader : ∀ {t : Pipe}, t.chans = s.chans.set i none → ∀ d j, (s.q d).reader = some j → t.side j = some d := by
    intro t hch d j hj
    have hne : j ≠ i := by
      rintro rfl
      exact hr d hj
    rw [side_set_ne hch hne, h.reader d j hj]
  have hheld : ∀ {t : Pipe}, t.chans = s.chans.set i none → s.ref = t.held + 1 := by
    intro t hch
    have hset : t.held + 1 = s.held := held_set hc hch
    have href := h.ref
    rw [hcl, ← hset] at href
    exact href.trans (Int.add_zero _)
  have hopens : ∀ {t : Pipe}, t.chans = s.chans.set i none → ∀ d, (t.opens d : Int) =
      s.qref d - if c.side = some d then 1 else 0 := by
    intro t hch d
    have hset := opens_close hc hch d
    rw [h.qref d, ← hset, Nat.cast_add, Nat.cast_ite]
    exact (Int.add_sub_cancel _ _).symm
  unfold pipeclose
  dsimp only
  rcases hside : c.side with _ | d
  · refine of_release (hheld rfl) (fun d => ?_) (hreader rfl) h.good hcl (h.idle hcl)
    have hd := hopens (t := { s with chans := s.chans.set i none }) rfl d
    rw [hside] at hd
    rw [hd]
    exact (Int.sub_zero _).symm
  have hqref : ∀ {t : Pipe}, t.chans = s.chans.set i none → ∀ d',
      update s.qref d (s.qref d - 1) d' = t.opens d' := by
    intro t hch d'
    rw [hopens hch d', hside]
    by_cases hd : d' = d
    · subst hd
      rw [update_self, if_pos rfl]
    · rw [update_of_ne hd, if_neg fun he => hd (Option.some.inj he).symm, Int.sub_zero]
  dsimp only
  split
  case isTrue hzero =>
    rw [update_self] at hzero
    refine ⟨?_, hqref rfl, fun d' j hj => hreader rfl d' j ?_, fun d' => ?_, fun d' hd => ?_, by rintro ⟨⟩⟩
    · exact hheld rfl
    · dsimp only at hj
      by_cases hd : d' = d.other
      · subst hd
        rw [update_self] at hj
        exact hj
      · rwa [update_of_ne hd] at hj
    · have hg := h.good d'
      by_cases hd : d' = d.other
      · subst hd
        have hhung : Pipe.hung { s with
            qref := update s.qref d (s.qref d - 1)
            q := update s.q d.other ((s.q d.other).map (Flow.qhangup []))
            chans := s.chans.set i none, closing := some d } d.other = true := by
          simp [Pipe.hung]
        dsimp only
        rw [hhung, update_self]
        exact hg.qhangup
      obtain rfl := Side.eq_of_ne_other hd
      have hhung : Pipe.hung { s with
          qref := update s.qref d' (s.qref d' - 1)
          q := update s.q d'.other ((s.q d'.other).map (Flow.qhangup []))
          chans := s.chans.set i none, closing := some d' } d' = s.hung d' := by
        simp [Pipe.hung, hcl, hd]
      dsimp only
      rw [hhung, update_of_ne hd]
      exact hg
    · cases hd
      exact (update_self ..).trans hzero
  case isFalse hne =>
    refine of_release (hheld rfl) (hqref rfl) (hreader rfl) h.good hcl fun hz => ?_
    have hd := hz d
    dsimp only at hd
    exact absurd hd hne

theorem of_closed (hd : s.closing = some d)
    (hrest : s.qref d.other = 0 → bytes (s.q d.other).stream.q.bfirst = []) : Inv (pipeclosed s d) := by
  refine of_release ?_ h.qref (fun d' j hj => h.reader d' j ?_) (fun d' => ?_) rfl fun hzero d' => ?_
  · have href := h.ref
    rw [hd] at href
    exact href
  · dsimp only at hj
    by_cases hne : d' = d
    · subst hne
      rw [update_self] at hj
      exact hj
    · rwa [update_of_ne hne] at hj
  · have hg := h.good d'
    have hhung : Pipe.hung { s with
        q := update s.q d ((s.q d).map Fifo.qclose), shut := update s.shut d true
        closing := none } d' = true := by
      by_cases hne : d' = d
      · simp [Pipe.hung, hne]
      · have hother : d' = d.other := Side.eq_of_ne_other (by simpa using hne)
        simp [Pipe.hung, hother]
    dsimp only
    rw [hhung]
    by_cases hne : d' = d
    · subst hne
      rw [update_self, update_self]
      exact hg.qclose (h.reader_none (h.closing d' hd))
    · have hother : d' = d.other := Side.eq_of_ne_other (by simpa using hne)
      have hold : s.hung d' = true := by simp [Pipe.hung, hother, hd]
      rw [update_of_ne hne, update_of_ne hne, ← hold]
      exact hg
  · dsimp only
    by_cases hne : d' = d
    · subst hne
      rw [update_self]
      rfl
    · obtain rfl : d' = d.other := Side.eq_of_ne_other (by simpa using hne)
      rw [update_of_ne hne]
      exact hrest (hzero d.other)

theorem of_step {eve : Bytes} {a : Act} (hG : Careful s a) (hs : step eve s a = some s') : Inv s' := by
  cases a with
  | walk i names =>
    obtain ⟨c, -, hs⟩ := bind_eq_some_iff.1 hs
    split at hs
    · cases hs
    · cases hs
      exact h.of_walk names
  | «open» i up omode =>
    obtain ⟨c, hc, hs⟩ := bind_eq_some_iff.1 hs
    split at hs
    · cases hs
    case isFalse hno => exact h.of_open hc (Bool.eq_false_of_not_eq_true hno) hs
  | read i len =>
    obtain ⟨d, hi, hs⟩ := bind_eq_some_iff.1 hs
    refine h.of_onQueue hi (.take len) trivial (fun t _ => isSome_map.symm) (fun t j hj => ?_) hs
    obtain ⟨-, -, rfl⟩ := map_eq_some_iff.1 hj
    exact hi
  | putback i =>
    obtain ⟨d, hi, hs⟩ := bind_eq_some_iff.1 hs
    split at hs
    · refine h.of_onQueue hi .putback trivial (fun t ht => ?_) (by rintro t j ⟨⟩) hs
      obtain ⟨bs, -, rfl⟩ := map_eq_some_iff.1 (turn_exec ht)
      rfl
    · cases hs
  | bread i len block =>
    obtain ⟨d, hi, hs⟩ := bind_eq_some_iff.1 hs
    refine h.of_onQueue hi (.qbread len block) (hG d hi) (fun t ht => ?_) (fun t => h.reader d) hs
    rw [turn_left (.qbread len block) ht (by rintro len ⟨⟩) (by rintro ⟨⟩)]
    exact (h.good d).held
  | write i p len sofar block =>
    obtain ⟨d, hi, hs⟩ := bind_eq_some_iff.1 hs
    refine h.of_onQueue hi (.qwrite p len sofar block) trivial (fun t ht => ?_) (fun t => h.reader d.other) hs
    rw [turn_left (.qwrite p len sofar block) ht (by rintro len ⟨⟩) (by rintro ⟨⟩)]
    exact (h.good d.other).held
  | bwrite i b =>
    obtain ⟨d, hi, hs⟩ := bind_eq_some_iff.1 hs
    refine h.of_onQueue hi (.qbwrite b) trivial (fun t ht => ?_) (fun t => h.reader d.other) hs
    rw [turn_left (.qbwrite b) ht (by rintro len ⟨⟩) (by rintro ⟨⟩)]
    exact (h.good d.other).held
  | close i =>
    obtain ⟨c, hc, hs⟩ := bind_eq_some_iff.1 hs
    split at hs
    · cases hs
    case isFalse hno =>
      cases hs
      obtain ⟨hcl, h0, h1⟩ : ¬ s.closing.isSome = true ∧ (s.q .data0).reader ≠ some i ∧ (s.q .data1).reader ≠ some i := by
        simpa [not_or] using hno
      refine h.of_close hc (not_isSome_iff_eq_none.1 hcl) fun d => ?_
      rcases d with _ | _
      · exact h0
      · exact h1
  | closed =>
    obtain ⟨d, hd, rfl⟩ := map_eq_some_iff.1 hs
    exact h.of_closed hd (hG d hd)

theorem ended (hsh : s.shut d.other = true) : Ended (s.q d).stream.q (s.q d.other).stream.q := by
  have hrd : s.hung d = true := by simp [Pipe.hung, hsh]
  have hwr : s.hung d.other = true := by simp [Pipe.hung, hsh]
  have hclosed := (h.good d).closed hrd
  have hother := (h.good d.other).closed hwr
  refine ⟨fun hne len => ?_, fun hnil len => ?_, fun hne len addr => ?_, fun hnil len block => ?_,
    fun _ _ _ _ _ hr => qwrite_closed hother hr, qbwrite_closed hother⟩
  · obtain ⟨b, rest, hq⟩ := exists_cons_of_ne_nil hne
    rw [taken_cons hq]
    exact ⟨_, rfl⟩
  · rw [taken_empty hnil]
    exact qwait_eof hclosed (h.good d).err
  · obtain ⟨b, rest, hq⟩ := exists_cons_of_ne_nil hne
    exact qbread_cons hq len addr
  · rw [qbread_empty hnil]
    exact qwait_eof hclosed (h.good d).err

theorem session : Session s :=
  ⟨h.qref, fun d => (h.good d).order, fun d hd => ((h.good d).kept hd).intact, fun _ => h.ended⟩

theorem not_session_bread {d : Side} {len : Nat} {block : Option Nat} {r : Stream → Option Nat}
    (ho : ¬ (Qio.Act.qbread len block).Orderly (s.q d).stream) (ht : onQueue s d (.qbread len block) r = some s') :
    ¬ Session s' := by
  intro hses
  obtain ⟨e, he, rfl⟩ := map_eq_some_iff.1 ht
  obtain ⟨t, hturn, rfl⟩ := map_eq_some_iff.1 he
  obtain ⟨hblock, hfit⟩ := not_or.1 ho
  obtain rfl := not_not.1 hblock
  push Not at hfit
  obtain ⟨b, hb, hlen⟩ := hfit
  obtain ⟨rest, hq⟩ : ∃ rest, (s.q d).stream.q.bfirst = b :: rest := List.head?_eq_some_iff.1 hb
  have hopen : s.shut d = false := by
    rcases hsh : s.shut d with _ | _
    · rfl
    · cases hq.symm.trans ((h.good d).gone hsh).empty
  have hnew := hses.rest d hopen
  have hold := ((h.good d).kept hopen).intact
  have hexec := turn_exec hturn
  dsimp only [Qio.Act.exec] at hexec
  split at hexec
  · cases hexec
  case isFalse hno =>
    have hread : (s.q d).stream.q.qbread mode.toKind len none = (.error, (s.q d).stream.q.pop b rest) := by
      simp [Fifo.qbread, hq, mode, hlen]
    rw [hread] at hexec
    cases hexec
    dsimp only at hnew
    rw [update_self] at hnew
    unfold Intact at hold
    change (s.q d).stream.delivered ++ [] ++ (bytes (s.q d).stream.held ++ bytes rest) = _ at hnew
    rw [hq, bytes_cons, Kept.held_none hno] at hold
    rw [Kept.held_none hno] at hnew
    have hlost := congrArg List.length (hold.trans hnew.symm)
    simp only [append_nil, bytes_nil, nil_append, length_append] at hlost
    simp only [Block.BLEN] at hlen
    omega

theorem not_session {eve : Bytes} {a : Act} (hG : ¬ Careful s a) (hs : step eve s a = some s') : ¬ Session s' := by
  cases a with
  | bread i len block =>
    obtain ⟨d, hi, hs⟩ := bind_eq_some_iff.1 hs
    refine h.not_session_bread (fun ho => hG fun d' hi' => ?_) hs
    obtain rfl := Option.some.inj (hi.symm.trans hi')
    exact ho
  | closed =>
    intro hses
    obtain ⟨d, hd, rfl⟩ := map_eq_some_iff.1 hs
    refine hG fun d' hd' hzero => ?_
    obtain rfl := Option.some.inj (hd.symm.trans hd')
    have hboth : s.qref .data0 = 0 ∧ s.qref .data1 = 0 := by
      have hz := h.closing d hd
      rcases d with _ | _
      · exact ⟨hz, hzero⟩
      · exact ⟨hzero, hz⟩
    have hne : d.other ≠ d := Side.other_ne
    have hrest := hses.rest d.other
    unfold pipeclosed release at hrest
    rw [if_pos hboth] at hrest
    have hintact := hrest rfl
    dsimp only [Intact, End.reopen] at hintact
    rw [update_of_ne hne] at hintact
    exact (append_eq_nil_iff.1 (append_eq_nil_iff.1 hintact).2).2
  | walk i names => exact absurd trivial hG
  | «open» i up omode => exact absurd trivial hG
  | read i len => exact absurd trivial hG
  | putback i => exact absurd trivial hG
  | write i p len sofar block => exact absurd trivial hG
  | bwrite i b => exact absurd trivial hG
  | close i => exact absurd trivial hG

end

end Inv

theorem sessions_iff (eve user : Bytes) (acts : List Act) :
    Always (step eve) Session (pipeattach user) acts ↔ Along (step eve) Careful (pipeattach user) acts :=
  always_iff_along (fun _ => Inv.session) (fun _ _ _ h => h.of_step) (fun _ _ _ h => h.not_session) (Inv.attach user)

/-- One side is opened, writes a byte and is closed. Then the other is opened, and reads it. -/
theorem not_sessions : ¬ ∀ (eve user : Bytes) (acts : List Act),
    Always (step eve) Session (pipeattach user) acts := by
  intro h
  have hlast := (h [] [] [.walk 0 [nameData], .open 1 [] 2, .write 1 [7] 1 0 (some 0), .close 1, .closed,
    .walk 0 [nameData1], .open 2 [] 0, .read 2 1]).last rfl
  exact absurd (hlast.order .data1) (by decide)

end Node9.Devpipe
