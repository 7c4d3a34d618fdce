import Node9.Channel

/-!
# One channel: order of delivery and stranded waiters

With a single channel the globals are its own closures. `View` keeps what matters of the state: the channel,
the number `k` of receivers that were made ready and have not yet taken their value, and the two histories.
Each step of the system is one of the eight steps of the view (`soloStep_view`).

A value travels through the buffer or through `pending`. Neither `send` nor `recv` looks at the waiters
before it uses the buffer, so a later value can overtake through the buffer, and a waiter can stay behind.
-/

namespace Node9.Channel
open Steps Function List

variable {V : Type}

inductive SoloOp (V : Type)
  | send (t : Nat) (v : V)
  | recv (t : Nat)
  | resume (t : Nat)

def SoloOp.toOp : SoloOp V → Op V
  | .send t v => .send t 0 v
  | .recv t => .recv t 0
  | .resume t => .resume t

/-- A system with one channel, of the given size. -/
def solo (size : Nat) : St V := init.create size

def soloStep (s : St V) (op : SoloOp V) : Option (St V) := step s op.toOp

/-- The channel is the only one, and everyone who waits does so over its lists. -/
structure Solo (s : St V) : Prop where
  ok : s.Ok
  nchan : s.nchan = 1
  via : ∀ t w, s.wait t = some w → w.via = 0

structure View (V : Type) where
  ch : Chan V
  k : Nat
  got : List (Option (Msg V))
  sent : List (Msg V)

def isRecv (wait : Nat → Option Wait) (t : Nat) : Bool := (wait t).any fun w => w.kind = .recv

def St.view (s : St V) : View V :=
  ⟨s.chans 0, s.rdyq.countP (isRecv s.wait), s.got.map Prod.snd, s.sent⟩

def View.HasRoom (v : View V) : Prop := 0 < v.ch.size ∧ v.ch.buff.length < v.ch.size
def View.HasData (v : View V) : Prop := 0 < v.ch.size ∧ 0 < v.ch.buff.length

inductive VStep (v : View V) : SoloOp V → View V → Prop
  | sendBuff {t x} (hroom : v.HasRoom) :
    VStep v (.send t x) { v with ch := { v.ch with buff := v.ch.buff ++ [⟨x, 0⟩] }, sent := v.sent ++ [⟨x, 0⟩] }
  | sendWake {t x r rs} (hroom : ¬ v.HasRoom) (hr : v.ch.receivers = r :: rs) :
    VStep v (.send t x) { v with
      ch := { v.ch with pending := v.ch.pending ++ [⟨x, 0⟩], receivers := rs }
      k := v.k + 1
      sent := v.sent ++ [⟨x, 0⟩] }
  | sendBlock {t x} (hroom : ¬ v.HasRoom) (hr : v.ch.receivers = []) :
    VStep v (.send t x) { v with
      ch := { v.ch with pending := v.ch.pending ++ [⟨x, 0⟩], senders := v.ch.senders ++ [t] }
      sent := v.sent ++ [⟨x, 0⟩] }
  | recvBuff {t m ms} (hdata : v.HasData) (hm : v.ch.buff = m :: ms) :
    VStep v (.recv t) { v with ch := { v.ch with buff := ms }, got := v.got ++ [some m] }
  | recvWake {t r rs} (hdata : ¬ v.HasData) (hr : v.ch.senders = r :: rs) :
    VStep v (.recv t) { v with
      ch := { v.ch with senders := rs, pending := (pop v.ch.pending).2 }
      got := v.got ++ [(pop v.ch.pending).1] }
  | recvBlock {t} (hdata : ¬ v.HasData) (hr : v.ch.senders = []) :
    VStep v (.recv t) { v with ch := { v.ch with receivers := v.ch.receivers ++ [t] } }
  | resumeSend {t} : VStep v (.resume t) v
  | resumeRecv {t k} (hk : v.k = k + 1) :
    VStep v (.resume t) { v with
      ch := { v.ch with pending := (pop v.ch.pending).2 }, k, got := v.got ++ [(pop v.ch.pending).1] }

/-! ### The system goes as the view -/

theorem solo_solo (size : Nat) : Solo (solo size : St V) where
  ok := (Goes.create size).ok ok_init
  nchan := rfl
  via _ _ h := nomatch h

section
variable {Q : Nat → Kind → List Nat} {wait : Nat → Option Wait} {rdyq : List Nat}

theorem countP_wake {g t : Nat} {k : Kind} (h : Placed Q wait rdyq) (ht : t ∈ Q g k) :
    (rdyq ++ [t]).countP (isRecv wait) = rdyq.countP (isRecv wait) + if k = .recv then 1 else 0 := by
  obtain ⟨c, hw⟩ := h.queued g k t ht
  rw [countP_append, countP_singleton]
  simp [isRecv, hw]

theorem countP_block {t : Nat} (w : Wait) (ht : t ∉ rdyq) :
    rdyq.countP (isRecv (update wait t (some w))) = rdyq.countP (isRecv wait) := by
  refine countP_congr fun t' ht' => ?_
  have hne : t' ≠ t := fun heq => ht (heq ▸ ht')
  rw [isRecv, isRecv, update_of_ne hne]

theorem countP_resume {t : Nat} (h : Placed Q wait rdyq) (ht : t ∈ rdyq) :
    rdyq.countP (isRecv wait) =
      (rdyq.erase t).countP (isRecv (update wait t none)) + if isRecv wait t then 1 else 0 := by
  have hcongr : (rdyq.erase t).countP (isRecv (update wait t none)) =
      (rdyq.erase t).countP (isRecv wait) := by
    refine countP_congr fun t' ht' => ?_
    have hne := ((h.rdyq_nodup.mem_erase_iff).1 ht').1
    rw [isRecv, isRecv, update_of_ne hne]
  rw [hcongr, (perm_cons_erase ht).countP_eq, countP_cons]

end

section
variable {s s' : St V}

theorem Solo.via_update (h : Solo s) (t : Nat) {o : Option Wait} (ho : ∀ w ∈ o, w.via = 0) :
    ∀ t' w, update s.wait t o t' = some w → w.via = 0 := by
  intro t' w ht'
  by_cases heq : t' = t
  · rw [heq, update_self] at ht'
    exact ho w ht'
  · rw [update_of_ne heq] at ht'
    exact h.via t' w ht'

theorem view_send {t : Nat} {x : V} (h : Solo s) (hgo : Goes s (.send t 0 x) s') :
    Solo s' ∧ VStep s.view (.send t x) s'.view := by
  have hok := hgo.ok h.ok
  have hlatest : s.latest = 0 := by rw [St.latest, h.nchan]
  cases hgo with
  | sendBuff hc hroom =>
    refine ⟨⟨hok, h.nchan, h.via⟩, ?_⟩
    have hgo := VStep.sendBuff (v := s.view) (t := t) (x := x) hroom
    simpa only [St.view, update_self] using hgo
  | @sendWake _ _ r _ rs hc hroom hr =>
    refine ⟨⟨hok, h.nchan, h.via⟩, ?_⟩
    rw [hlatest] at hr
    have hmem : r ∈ s.queue 0 .recv := by
      show r ∈ (s.chans 0).receivers
      simp [hr]
    have hgo := VStep.sendWake (v := s.view) (t := t) (x := x) hroom hr
    simpa only [St.view, hlatest, update_self, countP_wake h.ok hmem, ↓reduceIte] using hgo
  | sendBlock ht hc hroom hr =>
    refine ⟨⟨hok, h.nchan, h.via_update t (by rintro w ⟨⟩; exact hlatest)⟩, ?_⟩
    rw [hlatest] at hr
    have hgo := VStep.sendBlock (v := s.view) (t := t) (x := x) hroom hr
    simpa only [St.view, hlatest, update_self, countP_block _ (h.ok.not_ready ht)] using hgo

theorem view_recv {t : Nat} (h : Solo s) (hgo : Goes s (.recv t 0) s') :
    Solo s' ∧ VStep s.view (.recv t) s'.view := by
  have hok := hgo.ok h.ok
  have hlatest : s.latest = 0 := by rw [St.latest, h.nchan]
  cases hgo with
  | recvBuff hc hdata hm =>
    refine ⟨⟨hok, h.nchan, h.via⟩, ?_⟩
    have hgo := VStep.recvBuff (v := s.view) (t := t) hdata hm
    simpa only [St.view, update_self, map_append, map_cons, map_nil] using hgo
  | @recvWake _ _ r rs hc hdata hr =>
    refine ⟨⟨hok, h.nchan, h.via⟩, ?_⟩
    rw [hlatest] at hr
    have hmem : r ∈ s.queue 0 .send := by
      show r ∈ (s.chans 0).senders
      simp [hr]
    have hgo := VStep.recvWake (v := s.view) (t := t) hdata hr
    simpa only [St.view, hlatest, update_self, countP_wake h.ok hmem, map_append, map_cons,
      map_nil, reduceCtorEq, ↓reduceIte, add_zero] using hgo
  | recvBlock ht hc hdata hr =>
    refine ⟨⟨hok, h.nchan, h.via_update t (by rintro w ⟨⟩; exact hlatest)⟩, ?_⟩
    rw [hlatest] at hr
    have hgo := VStep.recvBlock (v := s.view) (t := t) hdata hr
    simpa only [St.view, hlatest, update_self, countP_block _ (h.ok.not_ready ht)] using hgo

theorem view_resume {t : Nat} (h : Solo s) (hgo : Goes s (.resume t) s') :
    Solo s' ∧ VStep s.view (.resume t) s'.view := by
  have hok := hgo.ok h.ok
  cases hgo with
  | resumeSend ht hw =>
    refine ⟨⟨hok, h.nchan, h.via_update t (by simp)⟩, ?_⟩
    have hsend : isRecv s.wait t = false := by
      unfold isRecv
      cases hwt : s.wait t with
      | none => rfl
      | some w =>
        obtain ⟨_ | _, c, g⟩ := w
        · rfl
        · exact absurd hwt (hw c g)
    have hk := countP_resume h.ok ht
    rw [hsend] at hk
    have hgo := VStep.resumeSend (v := s.view) (t := t)
    simpa only [St.view, hk, Bool.false_eq_true, ↓reduceIte, add_zero] using hgo
  | @resumeRecv _ c g ht hw =>
    refine ⟨⟨hok, h.nchan, h.via_update t (by simp)⟩, ?_⟩
    obtain rfl : g = 0 := h.via t _ hw
    have hk := countP_resume h.ok ht
    rw [isRecv, hw] at hk
    have hgo := VStep.resumeRecv (v := s.view) (t := t) hk
    simpa only [St.view, update_self, map_append, map_cons, map_nil] using hgo

end

theorem soloStep_view {s s' : St V} {op : SoloOp V} (h : Solo s) (hs : soloStep s op = some s') :
    Solo s' ∧ VStep s.view op s'.view := by
  cases op with
  | send t x => exact view_send h (step_goes hs)
  | recv t => exact view_recv h (step_goes hs)
  | resume t => exact view_resume h (step_goes hs)

/-- What the `recv` calls returned is a prefix of what was passed to `send`; the rest is in the channel. -/
def Delivered (s : St V) : Prop :=
  s.view.got <+: s.sent.map some ∧
    (s.view.got ++ ((s.chans 0).buff ++ (s.chans 0).pending).map some).Perm (s.sent.map some)

/-- A `send` that finds room in the buffer finds no sender waiting, and one that finds the buffer full finds
no receiver waiting. -/
def View.KeepsOrder (v : View V) : SoloOp V → Prop
  | .send _ _ => (v.HasRoom → v.ch.senders = []) ∧ (0 < v.ch.size → ¬ v.HasRoom → v.ch.receivers = [])
  | _ => True

/-- The values leave in the order `got`, then the buffer, then `pending`; a channel with a buffer never hands
a value over to a receiver that waits. -/
structure Fifo (v : View V) : Prop where
  order : v.got ++ (v.ch.buff ++ v.ch.pending).map some = v.sent.map some
  count : v.ch.pending.length = v.ch.senders.length + v.k
  unbuffered : v.ch.size = 0 → v.ch.buff = []
  buffered : 0 < v.ch.size → v.k = 0

theorem fifo_solo (size : Nat) : Fifo (solo size : St V).view where
  order := rfl
  count := rfl
  unbuffered _ := rfl
  buffered _ := rfl

namespace Fifo
variable {v v' : View V}

theorem take {n : Nat} (h : Fifo v) (hbuff : v.ch.buff = []) (hlen : v.ch.pending.length = n + 1) :
    (v.got ++ [(pop v.ch.pending).1]) ++ (v.ch.buff ++ (pop v.ch.pending).2).map some = v.sent.map some ∧
      (pop v.ch.pending).2.length = n := by
  obtain ⟨m, ms, hp⟩ := exists_cons_of_length_eq_add_one hlen
  have horder := h.order
  rw [hbuff, hp] at horder
  rw [hbuff, pop_cons hp]
  refine ⟨?_, ?_⟩
  · rw [← horder]
    simp
  · rw [hp] at hlen
    simpa using hlen

theorem buff_nil (h : Fifo v) (hdata : ¬ v.HasData) : v.ch.buff = [] := by
  rcases Nat.eq_zero_or_pos v.ch.size with hz | hpos
  · exact h.unbuffered hz
  · exact length_eq_zero_iff.1 (Nat.eq_zero_of_not_pos fun hlen => hdata ⟨hpos, hlen⟩)

theorem step {op : SoloOp V} (h : Fifo v) (hk : v.KeepsOrder op) (hgo : VStep v op v') : Fifo v' := by
  cases hgo with
  | @sendBuff t x hroom =>
    have hp : v.ch.pending = [] := by
      have hcount := h.count
      rw [hk.1 hroom, h.buffered hroom.1] at hcount
      exact length_eq_zero_iff.1 hcount
    refine ⟨?_, h.count, fun hz => absurd hz (Nat.pos_iff_ne_zero.1 hroom.1), h.buffered⟩
    have horder := h.order
    rw [hp] at horder ⊢
    simp only [append_nil, map_append, map_cons, map_nil] at horder ⊢
    rw [← horder, append_assoc]
  | @sendWake t x r rs hroom hr =>
    have hz : v.ch.size = 0 := by
      by_contra hpos
      have hnil := hk.2 (Nat.pos_of_ne_zero hpos) hroom
      exact absurd hnil (by simp [hr])
    refine ⟨?_, ?_, h.unbuffered, fun hpos => absurd hz (Nat.pos_iff_ne_zero.1 hpos)⟩
    · simp only [map_append, ← h.order, append_assoc]
    · simp only [length_append, length_singleton, h.count]
      omega
  | @sendBlock t x hroom hr =>
    refine ⟨?_, ?_, h.unbuffered, h.buffered⟩
    · simp only [map_append, ← h.order, append_assoc]
    · simp only [length_append, length_singleton, h.count]
      omega
  | @recvBuff t m ms hdata hm =>
    refine ⟨?_, h.count, fun hz => absurd hz (Nat.pos_iff_ne_zero.1 hdata.1), h.buffered⟩
    rw [← h.order, hm]
    simp
  | @recvWake t r rs hdata hr =>
    have hcount := h.count
    rw [hr, length_cons] at hcount
    obtain ⟨horder, hlen⟩ := h.take (n := rs.length + v.k) (h.buff_nil hdata) (by omega)
    exact ⟨horder, hlen, h.unbuffered, h.buffered⟩
  | recvBlock hdata hr => exact ⟨h.order, h.count, h.unbuffered, h.buffered⟩
  | resumeSend => exact h
  | @resumeRecv t k hk' =>
    -- somebody was made ready with a value, so the channel has no buffer
    have hz : v.ch.size = 0 := by
      by_contra hpos
      have := h.buffered (Nat.pos_of_ne_zero hpos)
      omega
    have hcount := h.count
    obtain ⟨horder, hlen⟩ := h.take (n := v.ch.senders.length + k) (h.unbuffered hz) (by omega)
    exact ⟨horder, hlen, h.unbuffered, fun hpos => absurd hz (Nat.pos_iff_ne_zero.1 hpos)⟩

theorem delivered {s : St V} (h : Fifo s.view) : Delivered s :=
  ⟨⟨_, h.order⟩, .of_eq h.order⟩

end Fifo

/-- In every run of one channel in which no `send` uses the buffer past a waiting sender, or finds a receiver
waiting at a full buffer, the values are delivered in the order of the `send` calls. -/
theorem delivered_of_keepsOrder (size : Nat) (ops : List (SoloOp V))
    (h : Along soloStep (fun s op => s.view.KeepsOrder op) (solo size) ops) :
    Always soloStep Delivered (solo size) ops := by
  have hstep : ∀ (s : St V) op s', Solo s ∧ Fifo s.view → s.view.KeepsOrder op → soloStep s op = some s' →
      Solo s' ∧ Fifo s'.view := by
    rintro s op s' ⟨hsolo, hfifo⟩ hk hs
    obtain ⟨hsolo', hgo⟩ := soloStep_view hsolo hs
    exact ⟨hsolo', hfifo.step hk hgo⟩
  exact (h.always hstep ⟨solo_solo size, fifo_solo size⟩).mono fun _ h => h.2.delivered

theorem keepsOrder_unbuffered {v : View V} (hz : v.ch.size = 0) (op : SoloOp V) : v.KeepsOrder op := by
  cases op with
  | send t x =>
    refine ⟨fun hroom => absurd hz (Nat.pos_iff_ne_zero.1 hroom.1), fun hpos => ?_⟩
    exact absurd hz (Nat.pos_iff_ne_zero.1 hpos)
  | recv t => trivial
  | resume t => trivial

/-- A channel without a buffer, a receiver that waits and a sender. -/
theorem delivered_rendezvous :
    Always soloStep Delivered (solo 0 : St Nat) [.recv 1, .send 2 7, .resume 1] :=
  delivered_of_keepsOrder 0 _ (.cons trivial rfl (.cons (keepsOrder_unbuffered rfl _) rfl
    (.cons trivial rfl trivial)))

/-- Size 1: 10 is buffered, the sender of 20 waits, 10 is received, 30 is buffered and received before 20. -/
theorem buffered_send_overtakes : ¬ ∀ (size : Nat) (ops : List (SoloOp Nat)),
    Always soloStep Delivered (solo size) ops := by
  intro h
  have hd := (h 1 [.send 1 10, .send 2 20, .recv 3, .send 3 30, .recv 3]).last rfl
  obtain ⟨rest, hrest⟩ := hd.1
  have hsnd : (some ⟨30, 0⟩ : Option (Msg Nat)) = some ⟨20, 0⟩ :=
    congrArg (fun l : List (Option (Msg Nat)) => (l.getD 1 none)) hrest
  exact absurd (congrArg (fun o : Option (Msg Nat) => o.map Msg.val) hsnd) (by decide)

/-! ### Stranded waiters -/

/-- No receiver waits while there is a value or a sender, and no sender while there is room or a receiver. -/
def View.NoneStranded (v : View V) : Prop :=
  ¬ (v.ch.receivers ≠ [] ∧ (v.ch.buff ≠ [] ∨ v.ch.senders ≠ [])) ∧
    ¬ (v.ch.senders ≠ [] ∧ (v.HasRoom ∨ v.ch.receivers ≠ []))

/-- A `send` that uses the buffer finds no receiver waiting, a `recv` that uses it no sender. -/
def View.LooksFirst (v : View V) : SoloOp V → Prop
  | .send _ _ => v.HasRoom → v.ch.receivers = []
  | .recv _ => v.HasData → v.ch.senders = []
  | .resume _ => True

structure Settled (v : View V) : Prop where
  receivers : v.ch.receivers ≠ [] → v.ch.buff = [] ∧ v.ch.senders = []
  senders : v.ch.senders ≠ [] → ¬ v.HasRoom
  capacity : v.ch.buff.length ≤ v.ch.size

namespace Settled
variable {v v' : View V} {op : SoloOp V}

theorem noneStranded (h : Settled v) : v.NoneStranded := by
  constructor
  · rintro ⟨hr, hb | hs⟩
    · exact hb (h.receivers hr).1
    · exact hs (h.receivers hr).2
  · rintro ⟨hs, hroom | hr⟩
    · exact h.senders hs hroom
    · exact hs (h.receivers hr).2

theorem step (h : Settled v) (hk : v.LooksFirst op) (hgo : VStep v op v') : Settled v' := by
  cases hgo with
  | sendBuff hroom =>
    have hr := hk hroom
    have hs : v.ch.senders = [] := by
      by_contra hne
      exact h.senders hne hroom
    refine ⟨fun hne => absurd hr hne, fun hne => absurd hs hne, ?_⟩
    rw [length_append]
    exact hroom.2
  | sendWake hroom hr =>
    have hne : v.ch.receivers ≠ [] := by simp [hr]
    obtain ⟨hb, hs⟩ := h.receivers hne
    exact ⟨fun _ => ⟨hb, hs⟩, fun hne => absurd hs hne, h.capacity⟩
  | sendBlock hroom hr => exact ⟨fun hne => absurd hr hne, fun _ => hroom, h.capacity⟩
  | recvBuff hdata hm =>
    have hs := hk hdata
    have hcap := h.capacity
    rw [hm, length_cons] at hcap
    refine ⟨fun hne => ?_, fun hne => absurd hs hne, Nat.le_of_succ_le hcap⟩
    exact absurd (h.receivers hne).1 (by simp [hm])
  | @recvWake t r rs hdata hr =>
    have hne : v.ch.senders ≠ [] := by simp [hr]
    have hrecv : v.ch.receivers = [] := by
      by_contra hne'
      exact hne (h.receivers hne').2
    exact ⟨fun hne' => absurd hrecv hne', fun _ => h.senders hne, h.capacity⟩
  | recvBlock hdata hr =>
    have hb : v.ch.buff = [] := by
      refine length_eq_zero_iff.1 (Nat.eq_zero_of_not_pos fun hlen => hdata ⟨?_, hlen⟩)
      exact lt_of_lt_of_le hlen h.capacity
    exact ⟨fun _ => ⟨hb, hr⟩, fun hne => absurd hr hne, h.capacity⟩
  | resumeSend => exact h
  | resumeRecv hk' => exact ⟨h.receivers, h.senders, h.capacity⟩

theorem step_strands (h : Settled v) (hk : ¬ v.LooksFirst op) (hgo : VStep v op v') : ¬ v'.NoneStranded := by
  rintro ⟨hrecv, hsend⟩
  cases hgo with
  | sendBuff hroom =>
    obtain ⟨-, hr⟩ := Classical.not_imp.1 hk
    exact hrecv ⟨hr, .inl (by simp)⟩
  | sendWake hroom hr => exact hk fun hroom' => absurd hroom' hroom
  | sendBlock hroom hr => exact hk fun _ => hr
  | @recvBuff t m ms hdata hm =>
    obtain ⟨-, hs⟩ := Classical.not_imp.1 hk
    have hlen : ms.length < v.ch.size := by
      have hcap := h.capacity
      rwa [hm, length_cons] at hcap
    exact hsend ⟨hs, .inl ⟨hdata.1, hlen⟩⟩
  | recvWake hdata hr => exact hk fun hdata' => absurd hdata' hdata
  | recvBlock hdata hr => exact hk fun _ => hr
  | resumeSend => exact hk trivial
  | resumeRecv hk' => exact hk trivial

end Settled

/-- No waiter is ever stranded exactly if no `send` uses the buffer past a waiting receiver and no `recv`
uses it past a waiting sender. -/
theorem noneStranded_iff_looksFirst (size : Nat) (ops : List (SoloOp V)) :
    Always soloStep (fun s => s.view.NoneStranded) (solo size) ops ↔
      Along soloStep (fun s op => s.view.LooksFirst op) (solo size) ops := by
  refine always_iff_along (I := fun s => Solo s ∧ Settled s.view) (fun _ h => h.2.noneStranded) ?_ ?_ ?_
  · rintro s op s' ⟨hsolo, h⟩ hk hs
    obtain ⟨hsolo', hgo⟩ := soloStep_view hsolo hs
    exact ⟨hsolo', h.step hk hgo⟩
  · rintro s op s' ⟨hsolo, h⟩ hk hs
    exact h.step_strands hk (soloStep_view hsolo hs).2
  · exact ⟨solo_solo size, fun hne => absurd rfl hne, fun hne => absurd rfl hne, Nat.zero_le _⟩

/-- Size 1: a receiver waits, and the next `send` puts its value in the buffer. -/
theorem buffered_send_strands_receiver : ¬ ∀ (size : Nat) (ops : List (SoloOp Nat)),
    Always soloStep (fun s => s.view.NoneStranded) (solo size) ops := by
  intro h
  have hn := (h 1 [.recv 1, .send 2 10]).last rfl
  exact hn.1 ⟨List.cons_ne_nil 1 [], .inl (List.cons_ne_nil _ [])⟩

end Node9.Channel
