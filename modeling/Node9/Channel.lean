import Node9.Lib.Steps

/-!
# Channels between tasks (`kernel.lua`)

`sys.Channel` gives every channel four lists of its own, and defines `sendwait` and `recvwait` with a plain
`function` inside the constructor: in Lua that assigns a global, so `send` and `recv` of every channel call
the pair that the last constructor made, over the lists of the last channel. `send` and `recv` use their
own channel only for the buffer.

A task runs until it yields in `sendwait` or `recvwait`; it goes on after `sched.ready` and a resume. Any
task that is not waiting may act next and any task made ready may be resumed next: the scheduler's order is
one of these. What is returned by `recv`, what is sent and who is made ready by what is recorded.
-/

namespace Node9.Channel
open Steps List
open Function (update update_self update_of_ne update_idem)

/-- `pl.List`: `put` inserts in front and `pop` takes from the end; here the end comes first. -/
def put {α : Type} (l : List α) (a : α) : List α := l ++ [a]

def pop {α : Type} : List α → Option α × List α
  | [] => (none, [])
  | a :: l => (some a, l)

theorem pop_nil {α : Type} {l : List α} (h : l = []) : pop l = (none, []) := by rw [h]; rfl

theorem pop_cons {α : Type} {l l' : List α} {a : α} (h : l = a :: l') : pop l = (some a, l') := by rw [h]; rfl

/-- A value, with the channel that it was passed to. -/
structure Msg (V : Type) where
  val : V
  chan : Nat

structure Chan (V : Type) where
  size : Nat
  senders : List Nat
  receivers : List Nat
  pending : List (Msg V)
  buff : List (Msg V)

inductive Kind
  | send
  | recv
deriving DecidableEq

/-- A task that has yielded: in `send` or `recv` of the channel `on`, over the lists of the channel `via`. -/
structure Wait where
  kind : Kind
  on : Nat
  via : Nat

structure St (V : Type) where
  /-- the channels, in the order of creation -/
  chans : Nat → Chan V
  nchan : Nat
  /-- the tasks between a yield in a channel and the resume after it -/
  wait : Nat → Option Wait
  rdyq : List Nat
  sent : List (Msg V)
  /-- the channel of each `recv` that took its value, and the value -/
  got : List (Nat × Option (Msg V))
  /-- each task made ready, and the channel of the operation that did it -/
  woken : List (Option Wait × Nat)

variable {V : Type}

def Chan.new (size : Nat) : Chan V := ⟨size, [], [], [], []⟩

def init : St V := ⟨fun _ => .new 0, 0, fun _ => none, [], [], [], []⟩

namespace St

def setChan (s : St V) (c : Nat) (ch : Chan V) : St V := { s with chans := update s.chans c ch }

/-- The channel whose `sendwait` and `recvwait` the globals are. -/
def latest (s : St V) : Nat := s.nchan - 1

def create (s : St V) (size : Nat) : St V := { s.setChan s.nchan (.new size) with nchan := s.nchan + 1 }

/-- `sched.ready(t)`, in an operation on the channel `c`. -/
def ready (s : St V) (t c : Nat) : St V := { s with rdyq := s.rdyq ++ [t], woken := s.woken ++ [(s.wait t, c)] }

/-- `coroutine.yield()`. -/
def block (s : St V) (t : Nat) (w : Wait) : St V := { s with wait := update s.wait t (some w) }

/-- `return pending:pop()`, in a `recv` of `c` over the lists of `g`. -/
def takePending (s : St V) (c g : Nat) : St V :=
  let p := pop (s.chans g).pending
  { s.setChan g { s.chans g with pending := p.2 } with got := s.got ++ [(c, p.1)] }

def sendwait (s : St V) (t c : Nat) (m : Msg V) : St V :=
  let g := s.latest
  let ch := { s.chans g with pending := put (s.chans g).pending m }
  match pop ch.receivers with
  | (some r, rs) => (s.setChan g { ch with receivers := rs }).ready r c
  | (none, _) => (s.setChan g { ch with senders := put ch.senders t }).block t ⟨.send, c, g⟩

def recvwait (s : St V) (t c : Nat) : St V :=
  let g := s.latest
  let ch := s.chans g
  match pop ch.senders with
  | (some r, rs) => ((s.setChan g { ch with senders := rs }).ready r c).takePending c g
  | (none, _) => (s.setChan g { ch with receivers := put ch.receivers t }).block t ⟨.recv, c, g⟩

/-- `send` finds room in the buffer of its channel. -/
def HasRoom (s : St V) (c : Nat) : Prop := 0 < (s.chans c).size ∧ (s.chans c).buff.length < (s.chans c).size

/-- `recv` finds a value in the buffer of its channel. -/
def HasData (s : St V) (c : Nat) : Prop := 0 < (s.chans c).size ∧ 0 < (s.chans c).buff.length

instance (s : St V) (c : Nat) : Decidable (s.HasRoom c) := inferInstanceAs (Decidable (_ ∧ _))
instance (s : St V) (c : Nat) : Decidable (s.HasData c) := inferInstanceAs (Decidable (_ ∧ _))

def send (s : St V) (t c : Nat) (v : V) : St V :=
  let m : Msg V := ⟨v, c⟩
  let s := { s with sent := s.sent ++ [m] }
  if s.HasRoom c then s.setChan c { s.chans c with buff := put (s.chans c).buff m }
  else s.sendwait t c m

def recv (s : St V) (t c : Nat) : St V :=
  if s.HasData c then
    let p := pop (s.chans c).buff
    { s.setChan c { s.chans c with buff := p.2 } with got := s.got ++ [(c, p.1)] }
  else s.recvwait t c

/-- The scheduler resumes a task of the ready queue, which goes on after its yield. -/
def resume (s : St V) (t : Nat) : St V :=
  let s' := { s with rdyq := s.rdyq.erase t, wait := update s.wait t none }
  match s.wait t with
  | some ⟨.recv, c, g⟩ => s'.takePending c g
  | _ => s'

end St

inductive Op (V : Type)
  | create (size : Nat)
  | send (t c : Nat) (v : V)
  | recv (t c : Nat)
  | resume (t : Nat)

def step (s : St V) : Op V → Option (St V)
  | .create size => some (s.create size)
  | .send t c v => if (s.wait t).isNone ∧ c < s.nchan then some (s.send t c v) else none
  | .recv t c => if (s.wait t).isNone ∧ c < s.nchan then some (s.recv t c) else none
  | .resume t => if t ∈ s.rdyq then some (s.resume t) else none

/-! ### What a step can do -/

/-- The nine ways a step can go, guards included. -/
inductive Goes (s : St V) : Op V → St V → Prop
  | create (size : Nat) : Goes s (.create size) (s.create size)
  | sendBuff {t c : Nat} {v : V} (hc : c < s.nchan) (hroom : s.HasRoom c) :
    Goes s (.send t c v) { s with
      sent := s.sent ++ [⟨v, c⟩]
      chans := update s.chans c { s.chans c with buff := (s.chans c).buff ++ [⟨v, c⟩] } }
  | sendWake {t c r : Nat} {v : V} {rs : List Nat} (hc : c < s.nchan) (hroom : ¬ s.HasRoom c)
      (hr : (s.chans s.latest).receivers = r :: rs) :
    Goes s (.send t c v) { s with
      sent := s.sent ++ [⟨v, c⟩]
      chans := update s.chans s.latest { s.chans s.latest with
        pending := (s.chans s.latest).pending ++ [⟨v, c⟩], receivers := rs }
      rdyq := s.rdyq ++ [r]
      woken := s.woken ++ [(s.wait r, c)] }
  | sendBlock {t c : Nat} {v : V} (ht : s.wait t = none) (hc : c < s.nchan) (hroom : ¬ s.HasRoom c)
      (hr : (s.chans s.latest).receivers = []) :
    Goes s (.send t c v) { s with
      sent := s.sent ++ [⟨v, c⟩]
      chans := update s.chans s.latest { s.chans s.latest with
        pending := (s.chans s.latest).pending ++ [⟨v, c⟩], senders := (s.chans s.latest).senders ++ [t] }
      wait := update s.wait t (some ⟨.send, c, s.latest⟩) }
  | recvBuff {t c : Nat} {m : Msg V} {ms : List (Msg V)} (hc : c < s.nchan) (hdata : s.HasData c)
      (hm : (s.chans c).buff = m :: ms) :
    Goes s (.recv t c) { s with
      chans := update s.chans c { s.chans c with buff := ms }
      got := s.got ++ [(c, some m)] }
  | recvWake {t c r : Nat} {rs : List Nat} (hc : c < s.nchan) (hdata : ¬ s.HasData c)
      (hr : (s.chans s.latest).senders = r :: rs) :
    Goes s (.recv t c) { s with
      chans := update s.chans s.latest { s.chans s.latest with
        senders := rs, pending := (pop (s.chans s.latest).pending).2 }
      rdyq := s.rdyq ++ [r]
      woken := s.woken ++ [(s.wait r, c)]
      got := s.got ++ [(c, (pop (s.chans s.latest).pending).1)] }
  | recvBlock {t c : Nat} (ht : s.wait t = none) (hc : c < s.nchan) (hdata : ¬ s.HasData c)
      (hr : (s.chans s.latest).senders = []) :
    Goes s (.recv t c) { s with
      chans := update s.chans s.latest { s.chans s.latest with
        receivers := (s.chans s.latest).receivers ++ [t] }
      wait := update s.wait t (some ⟨.recv, c, s.latest⟩) }
  | resumeSend {t : Nat} (ht : t ∈ s.rdyq) (hw : ∀ c g, s.wait t ≠ some ⟨.recv, c, g⟩) :
    Goes s (.resume t) { s with rdyq := s.rdyq.erase t, wait := update s.wait t none }
  | resumeRecv {t c g : Nat} (ht : t ∈ s.rdyq) (hw : s.wait t = some ⟨.recv, c, g⟩) :
    Goes s (.resume t) { s with
      rdyq := s.rdyq.erase t
      wait := update s.wait t none
      chans := update s.chans g { s.chans g with pending := (pop (s.chans g).pending).2 }
      got := s.got ++ [(c, (pop (s.chans g).pending).1)] }

theorem goes_send {s : St V} {t c : Nat} {v : V} (ht : s.wait t = none) (hc : c < s.nchan) :
    Goes s (.send t c v) (s.send t c v) := by
  by_cases hroom : s.HasRoom c
  · have heq : s.send t c v = (St.setChan { s with sent := s.sent ++ [⟨v, c⟩] } c
        { s.chans c with buff := put (s.chans c).buff ⟨v, c⟩ }) := if_pos hroom
    rw [heq]
    exact .sendBuff hc hroom
  have heq : s.send t c v = St.sendwait { s with sent := s.sent ++ [⟨v, c⟩] } t c ⟨v, c⟩ := if_neg hroom
  have hg : St.latest { s with sent := s.sent ++ [⟨v, c⟩] } = s.latest := rfl
  simp only [heq, St.sendwait, hg]
  by_cases hr : (s.chans s.latest).receivers = []
  · rw [pop_nil hr]
    exact .sendBlock ht hc hroom hr
  · obtain ⟨r, rs, hr⟩ := exists_cons_of_ne_nil hr
    rw [pop_cons hr]
    exact .sendWake hc hroom hr

theorem goes_recv {s : St V} {t c : Nat} (ht : s.wait t = none) (hc : c < s.nchan) :
    Goes s (.recv t c) (s.recv t c) := by
  by_cases hdata : s.HasData c
  · obtain ⟨m, ms, hm⟩ := exists_cons_of_length_pos hdata.2
    rw [St.recv, if_pos hdata]
    simp only [pop_cons hm]
    exact .recvBuff hc hdata hm
  rw [St.recv, if_neg hdata, St.recvwait]
  by_cases hr : (s.chans s.latest).senders = []
  · simp only [pop_nil hr]
    exact .recvBlock ht hc hdata hr
  · obtain ⟨r, rs, hr⟩ := exists_cons_of_ne_nil hr
    simp only [pop_cons hr, St.takePending, St.ready, St.setChan, update_self, update_idem]
    exact .recvWake hc hdata hr

theorem goes_resume {s : St V} {t : Nat} (ht : t ∈ s.rdyq) : Goes s (.resume t) (s.resume t) := by
  rw [St.resume]
  split
  · rename_i c g hw
    exact .resumeRecv ht hw
  · rename_i hw
    exact .resumeSend ht hw

theorem step_goes {s s' : St V} {op : Op V} (h : step s op = some s') : Goes s op s' := by
  cases op with
  | create size => obtain rfl := Option.some.inj h; exact .create size
  | send t c v =>
    simp only [step] at h
    split_ifs at h with hg
    cases h
    exact goes_send (Option.isNone_iff_eq_none.1 hg.1) hg.2
  | recv t c =>
    simp only [step] at h
    split_ifs at h with hg
    cases h
    exact goes_recv (Option.isNone_iff_eq_none.1 hg.1) hg.2
  | resume t =>
    simp only [step] at h
    split_ifs at h with hg
    cases h
    exact goes_resume hg

/-! ### Where a waiting task is -/

def St.queue (s : St V) (g : Nat) : Kind → List Nat
  | .send => (s.chans g).senders
  | .recv => (s.chans g).receivers

/-- A task in a queue waits over that channel's lists and in that way, and is in no other queue and not
ready; a task that is ready has not been resumed. -/
structure Placed (Q : Nat → Kind → List Nat) (wait : Nat → Option Wait) (rdyq : List Nat) : Prop where
  queued : ∀ g k, ∀ t ∈ Q g k, ∃ c, wait t = some ⟨k, c, g⟩
  nodup : ∀ g k, (Q g k).Nodup
  rdyq_nodup : rdyq.Nodup
  rdyq_wait : ∀ t ∈ rdyq, wait t ≠ none
  rdyq_queue : ∀ t ∈ rdyq, ∀ g k, t ∉ Q g k

namespace Placed
variable {Q Q' : Nat → Kind → List Nat} {wait : Nat → Option Wait} {rdyq : List Nat} {g t : Nat} {k : Kind}

section
variable (h : Placed Q wait rdyq)
include h

theorem unique (ht : t ∈ Q g k) {g' : Nat} {k' : Kind} (ht' : t ∈ Q g' k') :
    g' = g ∧ k' = k := by
  obtain ⟨c, hc⟩ := h.queued g k t ht
  obtain ⟨c', hc'⟩ := h.queued g' k' t ht'
  have := Option.some.inj (hc.symm.trans hc')
  simp only [Wait.mk.injEq] at this
  exact ⟨this.2.2.symm, this.1.symm⟩

theorem not_queued (ht : wait t = none) : t ∉ Q g k := by
  intro hq
  obtain ⟨c, hc⟩ := h.queued g k t hq
  exact absurd (ht.symm.trans hc) (by simp)

theorem not_ready (ht : wait t = none) : t ∉ rdyq := fun hr => h.rdyq_wait t hr ht

theorem shrink (hQ : ∀ g k, Q' g k = Q g k ∨ Q' g k = []) :
    Placed Q' wait rdyq := by
  have hsub : ∀ g k, ∀ t ∈ Q' g k, t ∈ Q g k := by
    intro g k t ht
    rcases hQ g k with heq | heq
    · exact heq ▸ ht
    · rw [heq] at ht
      exact absurd ht not_mem_nil
  refine ⟨fun g k t ht => h.queued g k t (hsub g k t ht), fun g k => ?_, h.rdyq_nodup, h.rdyq_wait,
    fun t ht g k hq => h.rdyq_queue t ht g k (hsub g k t hq)⟩
  rcases hQ g k with heq | heq
  · exact heq ▸ h.nodup g k
  · exact heq ▸ nodup_nil

theorem wake {r : Nat} {rs : List Nat} (hr : Q g k = r :: rs)
    (hQ : ∀ g' k', Q' g' k' = if g' = g ∧ k' = k then rs else Q g' k') : Placed Q' wait (rdyq ++ [r]) := by
  have hmem : r ∈ Q g k := by simp [hr]
  obtain ⟨hrs, hnd⟩ := nodup_cons.1 (hr ▸ h.nodup g k)
  have hsub : ∀ g' k', ∀ t ∈ Q' g' k', t ∈ Q g' k' ∧ t ≠ r := by
    intro g' k' t ht
    rw [hQ] at ht
    split_ifs at ht with heq
    · rw [heq.1, heq.2, hr]
      exact ⟨mem_cons_of_mem _ ht, fun hteq => hrs (hteq ▸ ht)⟩
    · exact ⟨ht, fun hteq => heq (h.unique hmem (hteq ▸ ht))⟩
  refine ⟨fun g' k' t ht => h.queued g' k' t (hsub g' k' t ht).1, fun g' k' => ?_, ?_, fun t ht => ?_,
    fun t ht g' k' htq => ?_⟩
  · rw [hQ]
    split_ifs
    · exact hnd
    · exact h.nodup g' k'
  · refine nodup_append.2 ⟨h.rdyq_nodup, nodup_singleton r, ?_⟩
    rintro t ht t' ht' rfl
    obtain rfl := mem_singleton.1 ht'
    exact h.rdyq_queue t ht g k hmem
  · rcases mem_append.1 ht with ht | ht
    · exact h.rdyq_wait t ht
    · obtain rfl := mem_singleton.1 ht
      obtain ⟨c, hc⟩ := h.queued g k t hmem
      simp [hc]
  · obtain ⟨htq, hne⟩ := hsub g' k' t htq
    rcases mem_append.1 ht with ht | ht
    · exact h.rdyq_queue t ht g' k' htq
    · exact hne (mem_singleton.1 ht)

theorem block {c : Nat} (ht : wait t = none)
    (hQ : ∀ g' k', Q' g' k' = if g' = g ∧ k' = k then Q g k ++ [t] else Q g' k') :
    Placed Q' (update wait t (some ⟨k, c, g⟩)) rdyq := by
  have hmem : ∀ g' k', ∀ t' ∈ Q' g' k', t' ∈ Q g' k' ∨ g' = g ∧ k' = k ∧ t' = t := by
    intro g' k' t' ht'
    rw [hQ] at ht'
    split_ifs at ht' with heq
    · rcases mem_append.1 ht' with ht' | ht'
      · exact .inl (heq.1 ▸ heq.2 ▸ ht')
      · exact .inr ⟨heq.1, heq.2, mem_singleton.1 ht'⟩
    · exact .inl ht'
  refine ⟨fun g' k' t' ht' => ?_, fun g' k' => ?_, h.rdyq_nodup, fun t' ht' => ?_, fun t' ht' g' k' htq => ?_⟩
  · rcases hmem g' k' t' ht' with hold | ⟨rfl, rfl, rfl⟩
    · have hne : t' ≠ t := fun heq => h.not_queued ht (heq ▸ hold)
      rw [update_of_ne hne]
      exact h.queued g' k' t' hold
    · exact ⟨c, update_self _ _ _⟩
  · rw [hQ]
    split_ifs
    · refine nodup_append.2 ⟨h.nodup g k, nodup_singleton t, ?_⟩
      rintro t' ht' t'' ht'' rfl
      exact h.not_queued ht (mem_singleton.1 ht'' ▸ ht')
    · exact h.nodup g' k'
  · have hne : t' ≠ t := fun heq => h.not_ready ht (heq ▸ ht')
    rw [update_of_ne hne]
    exact h.rdyq_wait t' ht'
  · rcases hmem g' k' t' htq with hold | ⟨-, -, rfl⟩
    · exact h.rdyq_queue t' ht' g' k' hold
    · exact h.not_ready ht ht'

theorem resume (ht : t ∈ rdyq) :
    Placed Q (update wait t none) (rdyq.erase t) := by
  have hne : ∀ t' ∈ rdyq.erase t, t' ≠ t ∧ t' ∈ rdyq := fun t' ht' => (h.rdyq_nodup.mem_erase_iff).1 ht'
  refine ⟨fun g k t' ht' => ?_, h.nodup, h.rdyq_nodup.erase t, fun t' ht' => ?_, fun t' ht' =>
    h.rdyq_queue t' (hne t' ht').2⟩
  · have : t' ≠ t := fun heq => h.rdyq_queue t ht g k (heq ▸ ht')
    rw [update_of_ne this]
    exact h.queued g k t' ht'
  · rw [update_of_ne (hne t' ht').1]
    exact h.rdyq_wait t' (hne t' ht').2

end

end Placed

def St.Ok (s : St V) : Prop := Placed s.queue s.wait s.rdyq

theorem ok_init : (init : St V).Ok :=
  ⟨fun _ k _ h => by cases k <;> simp [St.queue, init, Chan.new] at h,
   fun _ k => by cases k <;> simp [St.queue, init, Chan.new],
   nodup_nil, fun _ h => absurd h not_mem_nil, fun _ h => absurd h not_mem_nil⟩

attribute [local simp] St.queue update_of_ne

theorem Goes.ok {s s' : St V} {op : Op V} (h : s.Ok) (hgo : Goes s op s') : s'.Ok := by
  cases hgo with
  | create size =>
    refine Placed.shrink h fun g k => ?_
    by_cases hg : g = s.nchan
    · exact .inr (by cases k <;> simp [St.queue, St.create, St.setChan, Chan.new, hg])
    · exact .inl (by cases k <;> simp [St.queue, St.create, St.setChan, update_of_ne hg])
  | @sendBuff _ c _ hc hroom =>
    refine Placed.shrink h fun g k => .inl ?_
    by_cases hg : g = c <;> cases k <;> simp [hg]
  | sendWake hc hroom hr =>
    refine Placed.wake (g := s.latest) (k := .recv) h hr fun g' k' => ?_
    by_cases hg : g' = s.latest <;> cases k' <;> simp [hg]
  | sendBlock ht hc hroom hr =>
    refine Placed.block (g := s.latest) (k := .send) h ht fun g' k' => ?_
    by_cases hg : g' = s.latest <;> cases k' <;> simp [hg]
  | @recvBuff _ c _ _ hc hdata hm =>
    refine Placed.shrink h fun g k => .inl ?_
    by_cases hg : g = c <;> cases k <;> simp [hg]
  | recvWake hc hdata hr =>
    refine Placed.wake (g := s.latest) (k := .send) h hr fun g' k' => ?_
    by_cases hg : g' = s.latest <;> cases k' <;> simp [hg]
  | recvBlock ht hc hdata hr =>
    refine Placed.block (g := s.latest) (k := .recv) h ht fun g' k' => ?_
    by_cases hg : g' = s.latest <;> cases k' <;> simp [hg]
  | resumeSend ht hw => exact Placed.resume h ht
  | @resumeRecv _ _ c ht hw =>
    refine (Placed.resume h ht).shrink fun g k => .inl ?_
    by_cases hg : g = c <;> cases k <;> simp [hg]

end Node9.Channel
