import Node9.Scheduler

/-!
# Runs of the scheduler

`Inv`: every task that is ready, waits for a reply or waits in a channel is suspended, and is so in one place only.
A step keeps it if it meets `Fits`: `scheduler_always`.
-/

namespace Node9.Sched
open Buf Channel Steps Function List

variable {V : Type}

/-- The two colons that `resume` looks for. -/
def TwoColons : Err → Prop
  | .text s => ∃ a b x : Bytes, s = a ++ colon :: (b ++ colon :: x)
  | .other => False

/-- The report of the running task can be sent at once. -/
def Reports (s : St V) : Prop :=
  ∀ t, s.curproc = some t → (s.ctxt t).sync = .none ∨ ∃ c, (s.ctxt t).sync = .chan c ∧ ¬ SendBlocks s.chan c

def Fits (s : St V) : Act V → Prop
  | .request own => own = false
  | .send c _ own => own = true → ¬ SendBlocks s.chan c
  | .recv c own => own = true → ¬ RecvBlocks s.chan c
  | .spawn _ args => args < LUAI_MAXCSTACK
  | .resume u _ => s.co u ≠ .suspended
  | .exit => Reports s
  | .raise e => Reports s ∧ TwoColons e
  | _ => True

/-- The scheduler has not raised an error, yielded or resumed a coroutine that was not suspended; no task is ready
twice, and those that are ready have not ended. -/
def Sound (s : St V) : Prop :=
  s.crash = none ∧ (s.runq ++ s.chan.rdyq).Nodup ∧ ∀ t ∈ s.runq ++ s.chan.rdyq, s.co t = .suspended

theorem all_ne_iff {s : Bytes} : s.all (· ≠ colon) = true ↔ colon ∉ s := by
  rw [all_eq_true]
  constructor
  · intro h hc
    simpa using h colon hc
  · intro h x hx
    simpa using fun hxc : x = colon => h (hxc ▸ hx)

theorem dropWhile_append_colon {a x : Bytes} (ha : colon ∉ a) : (a ++ colon :: x).dropWhile (· ≠ colon) =
    colon :: x := by
  rw [dropWhile_append_of_pos (all_eq_true.1 (all_ne_iff.2 ha))]
  exact dropWhile_cons_of_neg (by simp)

theorem isSome_errstr (name : Bytes) (e : Err) : (errstr name e).isSome ↔ TwoColons e := by
  cases e with
  | other => exact ⟨(by intro h; cases h), False.elim⟩
  | text gen =>
    have hcount : TwoColons (.text gen) → 2 ≤ gen.count colon := by
      rintro ⟨a, b, x, rfl⟩
      simp only [count_append, count_cons_self]
      omega
    unfold errstr
    dsimp only
    by_cases hgen : colon ∈ gen
    · obtain ⟨a, x, rfl, ha⟩ := eq_append_cons_of_mem hgen
      rw [dropWhile_append_colon ha, drop_one, tail_cons]
      by_cases hx : colon ∈ x
      · have hno : ¬ (((a ++ colon :: x).all (· ≠ colon) || x.all (· ≠ colon)) = true) := by
          rw [Bool.or_eq_true, all_ne_iff, all_ne_iff]
          exact fun h => h.elim (fun h => h hgen) (fun h => h hx)
        rw [if_neg hno]
        obtain ⟨b, y, rfl, -⟩ := eq_append_cons_of_mem hx
        refine iff_of_true ?_ ⟨a, b, y, rfl⟩
        split_ifs <;> rfl
      · rw [if_pos (by rw [Bool.or_eq_true, all_ne_iff, all_ne_iff]; exact .inr hx)]
        refine iff_of_false (by simp) fun h => ?_
        have := hcount h
        rw [count_append, count_cons_self, count_eq_zero.2 ha, count_eq_zero.2 hx] at this
        omega
    · rw [if_pos (by rw [Bool.or_eq_true, all_ne_iff]; exact .inl hgen)]
      refine iff_of_false (by simp) fun h => ?_
      have := hcount h
      rw [count_eq_zero.2 hgen] at this
      omega

/-- A step between two tasks. -/
inductive Polled (s : St V) : Act V → St V → Prop
  | reply {t : Nat} (h : t ∈ s.requests) : Polled s (.reply t) (St.resume { s with requests := s.requests.erase t } t)
  | gone {t : Nat} : Polled s (.reply t) { s with requests := s.requests.erase t, halted := true }
  | noReply : Polled s .noReply { s with runq := s.chan.rdyq, chan := { s.chan with rdyq := [] }, replying := false }
  | next {t : Nat} {runq : List Nat} (h : s.runq = t :: runq) : Polled s .next (St.resume { s with runq := runq } t)
  | again : Polled s .next { s with replying := true }

theorem step_cases {s s' : St V} {a : Act V} (hs : step s a = some s') :
    (∃ t, s.curproc = some t ∧ act s t a = some s') ∨ s.curproc = none ∧ Polled s a s' := by
  unfold step at hs
  by_cases hend : (s.crash.isSome || s.halted) = true
  · rw [if_pos hend] at hs
    cases hs
  rw [if_neg hend] at hs
  split at hs
  case h_1 t hcur => exact .inl ⟨t, hcur, hs⟩
  case h_2 hcur =>
    refine .inr ⟨hcur, ?_⟩
    cases a with
    | reply t =>
      dsimp only at hs
      split_ifs at hs with hcond
      · cases hs
        rw [Bool.and_eq_true, contains_iff_mem] at hcond
        exact .reply hcond.2
      · cases hs
        exact .gone
    | noReply =>
      dsimp only at hs
      split_ifs at hs
      cases hs
      exact .noReply
    | next =>
      dsimp only at hs
      split_ifs at hs
      split at hs
      all_goals cases hs
      · exact .next ‹_›
      · exact .again
    | _ => cases hs

/-! ### What a channel operation does -/

section Effects
variable {ch : Channel.St (Item V)} {t c : Nat}

/-- An operation that does not block. -/
inductive Effect (ch ch' : Channel.St (Item V)) : Prop
  | quiet (hQ : ∀ g k, ch'.queue g k = ch.queue g k ∨ ch'.queue g k = []) (hw : ch'.wait = ch.wait)
      (hr : ch'.rdyq = ch.rdyq)
  | wake {g r : Nat} {k : Kind} {rs : List Nat} (hQ : ch.queue g k = r :: rs)
      (hQ' : ∀ g' k', ch'.queue g' k' = if g' = g ∧ k' = k then rs else ch.queue g' k') (hw : ch'.wait = ch.wait)
      (hr : ch'.rdyq = ch.rdyq ++ [r])

attribute [local simp] Channel.St.queue Channel.St.setChan

theorem effect_create (size : Nat) : Effect ch (ch.create size) := by
  refine .quiet (fun g k => ?_) rfl rfl
  by_cases hg : g = ch.nchan
  · exact .inr (by cases k <;> simp [Channel.St.create, Chan.new, hg])
  · exact .inl (by cases k <;> simp [Channel.St.create, update_of_ne hg])

theorem effect_send (v : Item V) (h : ¬ SendBlocks ch c) : Effect ch (ch.send t c v) := by
  by_cases hroom : ch.HasRoom c
  · have heq : ch.send t c v = (Channel.St.setChan { ch with sent := ch.sent ++ [⟨v, c⟩] } c
        { ch.chans c with buff := put (ch.chans c).buff ⟨v, c⟩ }) := if_pos hroom
    rw [heq]
    refine .quiet (fun g k => .inl ?_) rfl rfl
    by_cases hg : g = c <;> cases k <;> simp [hg, update_of_ne]
  obtain ⟨r, rs, hr⟩ := exists_cons_of_ne_nil fun hnil => h ⟨hroom, hnil⟩
  have heq : ch.send t c v = Channel.St.sendwait { ch with sent := ch.sent ++ [⟨v, c⟩] } t c ⟨v, c⟩ := if_neg hroom
  have hg : Channel.St.latest { ch with sent := ch.sent ++ [⟨v, c⟩] } = ch.latest := rfl
  rw [heq]
  simp only [Channel.St.sendwait, hg]
  rw [pop_cons hr]
  refine .wake (g := ch.latest) (k := .recv) hr (fun g' k' => ?_) rfl rfl
  by_cases hg : g' = ch.latest <;> cases k' <;> simp [Channel.St.ready, hg, update_of_ne]

theorem effect_recv (h : ¬ RecvBlocks ch c) : Effect ch (ch.recv t c) := by
  by_cases hdata : ch.HasData c
  · rw [Channel.St.recv, if_pos hdata]
    refine .quiet (fun g k => .inl ?_) rfl rfl
    by_cases hg : g = c <;> cases k <;> simp [hg, update_of_ne]
  obtain ⟨r, rs, hr⟩ := exists_cons_of_ne_nil fun hnil => h ⟨hdata, hnil⟩
  rw [Channel.St.recv, if_neg hdata, Channel.St.recvwait]
  simp only [pop_cons hr, Channel.St.takePending, Channel.St.ready, Channel.St.setChan, update_self,
    update_idem]
  refine .wake (g := ch.latest) (k := .send) hr (fun g' k' => ?_) rfl rfl
  by_cases hg : g' = ch.latest <;> cases k' <;> simp [hg, update_of_ne]

/-- An operation of `t` that blocks. -/
structure Blocked (ch ch' : Channel.St (Item V)) (t : Nat) (g : Nat) (k : Kind) (c : Nat) : Prop where
  queue : ∀ g' k', ch'.queue g' k' = if g' = g ∧ k' = k then ch.queue g k ++ [t] else ch.queue g' k'
  wait : ch'.wait = Function.update ch.wait t (some ⟨k, c, g⟩)
  rdyq : ch'.rdyq = ch.rdyq

theorem blocked_send (v : Item V) (h : SendBlocks ch c) : Blocked ch (ch.send t c v) t ch.latest .send c := by
  obtain ⟨hroom, hr⟩ := h
  have heq : ch.send t c v = Channel.St.sendwait { ch with sent := ch.sent ++ [⟨v, c⟩] } t c ⟨v, c⟩ := if_neg hroom
  have hg : Channel.St.latest { ch with sent := ch.sent ++ [⟨v, c⟩] } = ch.latest := rfl
  rw [heq]
  simp only [Channel.St.sendwait, hg]
  rw [pop_nil hr]
  refine ⟨fun g' k' => ?_, rfl, rfl⟩
  by_cases hg : g' = ch.latest <;> cases k' <;> simp [Channel.St.block, put, hg, update_of_ne]

theorem blocked_recv (h : RecvBlocks ch c) : Blocked ch (ch.recv t c) t ch.latest .recv c := by
  obtain ⟨hdata, hr⟩ := h
  rw [Channel.St.recv, if_neg hdata, Channel.St.recvwait]
  simp only [pop_nil hr]
  refine ⟨fun g' k' => ?_, rfl, rfl⟩
  by_cases hg : g' = ch.latest <;> cases k' <;> simp [Channel.St.block, put, hg, update_of_ne]

end Effects

/-- `t` is in the ready queues, waits for a reply, or waits in a channel. -/
def Parked (s : St V) (t : Nat) : Prop := t ∈ s.runq ++ s.chan.rdyq ∨ t ∈ s.requests ∨ s.chan.wait t ≠ none

structure Inv (s : St V) : Prop where
  placed : Placed s.chan.queue s.chan.wait []
  ready_nodup : (s.runq ++ s.chan.rdyq).Nodup
  requests_nodup : s.requests.Nodup
  ready_requests : ∀ t ∈ s.runq ++ s.chan.rdyq, t ∉ s.requests
  ready_queue : ∀ t ∈ s.runq ++ s.chan.rdyq, ∀ g k, t ∉ s.chan.queue g k
  requests_wait : ∀ t ∈ s.requests, s.chan.wait t = none
  suspended : ∀ t, Parked s t → s.co t = .suspended
  running : ∀ t, s.curproc = some t → s.co t = .running
  own : s.own = []
  crash : s.crash = none

namespace Inv
variable {s : St V} {t : Nat}

theorem init (name : Bytes) : Inv (St.init name : St V) := by
  have hwait : ∀ t, (St.init name : St V).chan.wait t = none := fun _ => rfl
  have hqueue : ∀ g k, (St.init name : St V).chan.queue g k = [] := fun _ k => by cases k <;> rfl
  refine ⟨⟨?_, ?_, nodup_nil, fun _ h => absurd h not_mem_nil, fun _ h => absurd h not_mem_nil⟩,
    nodup_singleton 1, nodup_nil, fun _ _ => not_mem_nil, ?_, fun _ h => absurd h not_mem_nil, ?_,
    fun _ h => (Option.some_ne_none _ h.symm).elim, rfl, rfl⟩
  · intro g k t ht
    rw [hqueue] at ht
    exact absurd ht not_mem_nil
  · intro g k
    rw [hqueue]
    exact nodup_nil
  · intro t _ g k
    rw [hqueue]
    exact not_mem_nil
  · rintro t (ht | ht | ht)
    · obtain rfl : t = 1 := mem_singleton.1 ht
      rfl
    · exact absurd ht not_mem_nil
    · exact absurd (hwait t) ht

section
variable (h : Inv s)
include h

theorem sound : Sound s := ⟨h.crash, h.ready_nodup, fun t ht => h.suspended t (.inl ht)⟩

theorem not_parked (ht : s.co t ≠ .suspended) : t ∉ s.runq ++ s.chan.rdyq ∧ t ∉ s.requests ∧
    s.chan.wait t = none :=
  ⟨fun hr => ht (h.suspended t (.inl hr)), fun hr => ht (h.suspended t (.inr (.inl hr))),
    by_contra fun hw => ht (h.suspended t (.inr (.inr hw)))⟩

theorem running_not_suspended (ht : s.curproc = some t) : s.co t ≠ .suspended := by
  rw [h.running t ht]
  decide

theorem frame {s' : St V} (hchan : s'.chan.queue = s.chan.queue ∧ s'.chan.wait = s.chan.wait ∧
    s'.chan.rdyq = s.chan.rdyq) (hrunq : s'.runq = s.runq) (hreq : s'.requests = s.requests) (hown : s'.own = s.own)
    (hcrash : s'.crash = s.crash) (hco : ∀ t, Parked s t → s'.co t = .suspended)
    (hcur : ∀ t, s'.curproc = some t → s'.co t = .running) : Inv s' := by
  obtain ⟨hQ, hw, hr⟩ := hchan
  have hpark : ∀ t, Parked s' t → Parked s t := fun t ht => by rwa [Parked, hrunq, hr, hreq, hw] at ht
  refine ⟨?_, ?_, ?_, ?_, ?_, ?_, fun t ht => hco t (hpark t ht), hcur, hown.trans h.own, hcrash.trans h.crash⟩
  · rw [hQ, hw]
    exact h.placed
  · rw [hrunq, hr]
    exact h.ready_nodup
  · rw [hreq]
    exact h.requests_nodup
  · rw [hrunq, hr, hreq]
    exact h.ready_requests
  · rw [hrunq, hr, hQ]
    exact h.ready_queue
  · rw [hreq, hw]
    exact h.requests_wait

theorem effect {ch' : Channel.St (Item V)} (he : Effect s.chan ch') : Inv { s with chan := ch' } := by
  cases he with
  | quiet hQ hw hr =>
    have hmem : ∀ g k, ∀ t ∈ ch'.queue g k, t ∈ s.chan.queue g k := fun g k t ht => by
      rcases hQ g k with heq | heq
      · exact heq ▸ ht
      · exact absurd (heq ▸ ht) not_mem_nil
    refine ⟨?_, ?_, h.requests_nodup, ?_, ?_, ?_, ?_, h.running, h.own, h.crash⟩
    · dsimp only
      rw [hw]
      exact h.placed.shrink hQ
    · dsimp only
      rw [hr]
      exact h.ready_nodup
    · dsimp only
      rw [hr]
      exact h.ready_requests
    · dsimp only
      rw [hr]
      exact fun t ht g k htq => h.ready_queue t ht g k (hmem g k t htq)
    · dsimp only
      rw [hw]
      exact h.requests_wait
    · intro t ht
      refine h.suspended t ?_
      rwa [Parked, hr, hw] at ht
  | @wake g r k rs hQ hQ' hw hr =>
    have hmem : r ∈ s.chan.queue g k := hQ ▸ mem_cons_self
    obtain ⟨c, hc⟩ := h.placed.queued g k r hmem
    have hsub : ∀ g' k', ∀ t ∈ ch'.queue g' k', t ∈ s.chan.queue g' k' := fun g' k' t ht => by
      rw [hQ'] at ht
      split_ifs at ht with heq
      · rw [heq.1, heq.2, hQ]
        exact mem_cons_of_mem _ ht
      · exact ht
    have hplaced := h.placed.wake hQ hQ'
    have hready : r ∉ s.runq ++ s.chan.rdyq := fun hr => h.ready_queue r hr g k hmem
    have hnew : ∀ t, t ∈ s.runq ++ ch'.rdyq ↔ t ∈ s.runq ++ s.chan.rdyq ∨ t = r := fun t => by
      rw [hr, ← append_assoc, mem_append, mem_singleton]
    refine ⟨?_, ?_, h.requests_nodup, ?_, ?_, ?_, ?_, h.running, h.own, h.crash⟩
    · dsimp only
      rw [hw]
      exact ⟨hplaced.queued, hplaced.nodup, nodup_nil, fun _ h => absurd h not_mem_nil,
        fun _ h => absurd h not_mem_nil⟩
    · dsimp only
      rw [hr, ← append_assoc]
      refine nodup_append.2 ⟨h.ready_nodup, nodup_singleton r, fun a ha b hb hab => ?_⟩
      rw [hab, mem_singleton.1 hb] at ha
      exact hready ha
    · intro t ht
      rcases (hnew t).1 ht with ht | rfl
      · exact h.ready_requests t ht
      · intro hreq
        rw [h.requests_wait t hreq] at hc
        cases hc
    · intro t ht g' k' htq
      rcases (hnew t).1 ht with ht | rfl
      · exact h.ready_queue t ht g' k' (hsub g' k' t htq)
      · exact hplaced.rdyq_queue t (mem_singleton_self t) g' k' htq
    · dsimp only
      rw [hw]
      exact h.requests_wait
    · rintro t (ht | ht | ht)
      · rcases (hnew t).1 ht with ht | rfl
        · exact h.suspended t (.inl ht)
        · exact h.suspended t (.inr (.inr (by rw [hc]; exact Option.some_ne_none _)))
      · exact h.suspended t (.inr (.inl ht))
      · dsimp only at ht
        rw [hw] at ht
        exact h.suspended t (.inr (.inr ht))

theorem less {s' : St V} (hQ : s'.chan.queue = s.chan.queue) (hw : s'.chan.wait = s.chan.wait)
    (hready : (s'.runq ++ s'.chan.rdyq).Sublist (s.runq ++ s.chan.rdyq)) (hreq : s'.requests.Sublist s.requests)
    (hco : s'.co = s.co) (hcur : s'.curproc = s.curproc) (hown : s'.own = s.own) (hcrash : s'.crash = s.crash) :
    Inv s' := by
  refine ⟨?_, hready.nodup h.ready_nodup, hreq.nodup h.requests_nodup, ?_, ?_, ?_, ?_, ?_, hown.trans h.own,
    hcrash.trans h.crash⟩
  · rw [hQ, hw]
    exact h.placed
  · exact fun t ht htr => h.ready_requests t (hready.subset ht) (hreq.subset htr)
  · rw [hQ]
    exact fun t ht => h.ready_queue t (hready.subset ht)
  · rw [hw]
    exact fun t ht => h.requests_wait t (hreq.subset ht)
  · rintro t (ht | ht | ht)
    · exact hco ▸ h.suspended t (.inl (hready.subset ht))
    · exact hco ▸ h.suspended t (.inr (.inl (hreq.subset ht)))
    · exact hco ▸ h.suspended t (.inr (.inr (hw ▸ ht)))
  · rw [hcur, hco]
    exact h.running

theorem suspend (t : Nat) : Inv (s.suspend t) := by
  refine h.frame ⟨rfl, rfl, rfl⟩ rfl rfl rfl rfl (fun u hu => ?_) fun u hu => by cases hu
  by_cases hut : u = t
  · rw [hut]
    exact update_self _ _ _
  · exact (update_of_ne hut _ _).trans (h.suspended u hu)

theorem ready (hco : s.co t = .suspended) (ht : ¬ Parked s t) : Inv (s.ready t) := by
  have hmem : ∀ u, u ∈ s.runq ++ (s.ready t).chan.rdyq ↔ u ∈ s.runq ++ s.chan.rdyq ∨ u = t := fun u => by
    rw [St.ready, ← append_assoc, mem_append, mem_singleton]
  have hwait : s.chan.wait t = none := by_contra fun hw => ht (.inr (.inr hw))
  refine ⟨h.placed, ?_, h.requests_nodup, fun u hu => ?_, fun u hu => ?_, h.requests_wait, fun u hu => ?_, h.running,
    h.own, h.crash⟩
  · rw [St.ready, ← append_assoc]
    refine nodup_append.2 ⟨h.ready_nodup, nodup_singleton t, fun a ha b hb hab => ?_⟩
    rw [hab, mem_singleton.1 hb] at ha
    exact ht (.inl ha)
  · rcases (hmem u).1 hu with hu | rfl
    · exact h.ready_requests u hu
    · exact fun hreq => ht (.inr (.inl hreq))
  · rcases (hmem u).1 hu with hu | rfl
    · exact h.ready_queue u hu
    · exact fun g k => h.placed.not_queued hwait
  · rcases hu with hu | hu
    · rcases (hmem u).1 hu with hu | rfl
      · exact h.suspended u (.inl hu)
      · exact hco
    · exact h.suspended u (.inr hu)

theorem request (hco : s.co t = .suspended) (ht : ¬ Parked s t) :
    Inv { s with requests := s.requests ++ [t] } := by
  have hwait : s.chan.wait t = none := by_contra fun hw => ht (.inr (.inr hw))
  refine ⟨h.placed, h.ready_nodup, ?_, fun u hu hreq => ?_, h.ready_queue, fun u hu => ?_, fun u hu => ?_, h.running,
    h.own, h.crash⟩
  · refine nodup_append.2 ⟨h.requests_nodup, nodup_singleton t, fun a ha b hb hab => ?_⟩
    rw [hab, mem_singleton.1 hb] at ha
    exact ht (.inr (.inl ha))
  · rcases mem_append.1 hreq with hreq | hreq
    · exact h.ready_requests u hu hreq
    · rw [mem_singleton.1 hreq] at hu
      exact ht (.inl hu)
  · rcases mem_append.1 hu with hu | hu
    · exact h.requests_wait u hu
    · rwa [mem_singleton.1 hu]
  · rcases hu with hu | hu | hu
    · exact h.suspended u (.inl hu)
    · rcases mem_append.1 hu with hu | hu
      · exact h.suspended u (.inr (.inl hu))
      · rwa [mem_singleton.1 hu]
    · exact h.suspended u (.inr (.inr hu))

theorem block (hco : s.co t = .suspended) (ht : ¬ Parked s t) {ch' : Channel.St (Item V)} {g c : Nat}
    {k : Kind} (hb : Blocked s.chan ch' t g k c) : Inv { s with chan := ch' } := by
  have hwait : s.chan.wait t = none := by_contra fun hw => ht (.inr (.inr hw))
  have hmem : ∀ g' k', ∀ u ∈ ch'.queue g' k', u ∈ s.chan.queue g' k' ∨ u = t := fun g' k' u hu => by
    rw [hb.queue] at hu
    split_ifs at hu with heq
    · rw [heq.1, heq.2]
      rcases mem_append.1 hu with hu | hu
      · exact .inl hu
      · exact .inr (mem_singleton.1 hu)
    · exact .inl hu
  refine ⟨?_, ?_, h.requests_nodup, ?_, ?_, ?_, ?_, h.running, h.own, h.crash⟩
  · dsimp only
    rw [hb.wait]
    exact h.placed.block hwait hb.queue
  · dsimp only
    rw [hb.rdyq]
    exact h.ready_nodup
  · dsimp only
    rw [hb.rdyq]
    exact h.ready_requests
  · dsimp only
    rw [hb.rdyq]
    intro u hu g' k' huq
    rcases hmem g' k' u huq with huq | rfl
    · exact h.ready_queue u hu g' k' huq
    · exact ht (.inl hu)
  · intro u hu
    have hut : u ≠ t := fun hut => ht (.inr (.inl (hut ▸ hu)))
    dsimp only
    rw [hb.wait, update_of_ne hut]
    exact h.requests_wait u hu
  · intro u hu
    by_cases hut : u = t
    · rwa [hut]
    · refine h.suspended u ?_
      rwa [Parked, hb.rdyq, hb.wait, update_of_ne hut] at hu

end

theorem queue_takePending (ch : Channel.St (Item V)) (c g : Nat) : (ch.takePending c g).queue = ch.queue := by
  refine funext fun g' => funext fun k => ?_
  by_cases hg : g' = g <;> cases k <;>
    simp [Channel.St.queue, Channel.St.takePending, Channel.St.setChan, hg, update_of_ne]

theorem queue_goOn (ch : Channel.St (Item V)) (t : Nat) : (St.goOn ch t).queue = ch.queue ∧
    (St.goOn ch t).wait = update ch.wait t none ∧ (St.goOn ch t).rdyq = ch.rdyq := by
  unfold St.goOn
  dsimp only
  split
  · exact ⟨queue_takePending _ _ _, rfl, rfl⟩
  · exact ⟨rfl, rfl, rfl⟩

section
variable (h : Inv s)
include h

theorem resume (hargs : s.args t < LUAI_MAXCSTACK) (hco : s.co t = .suspended)
    (hready : t ∉ s.runq ++ s.chan.rdyq) (hreq : t ∉ s.requests) (hqueue : ∀ g k, t ∉ s.chan.queue g k) : Inv (s.resume t) := by
  obtain ⟨hQ, hw, hr⟩ := queue_goOn s.chan t
  have hres : s.resume t = { s with
      chan := St.goOn s.chan t, co := update s.co t .running, args := update s.args t 0, curproc := some t } := by
    unfold St.resume
    rw [if_neg (Nat.not_le_of_lt hargs), if_pos hco]
  have hne : ∀ u, Parked (s.resume t) u → u ≠ t ∧ Parked s u := fun u hu => by
    rw [hres, Parked] at hu
    dsimp only at hu
    rw [hr, hw] at hu
    by_cases hut : u = t
    · rw [hut, update_self] at hu
      rcases hu with hu | hu | hu
      · exact absurd hu hready
      · exact absurd hu hreq
      · exact absurd rfl hu
    · rw [update_of_ne hut] at hu
      exact ⟨hut, hu⟩
  refine ⟨?_, ?_, ?_, ?_, ?_, ?_, fun u hu => ?_, ?_, ?_, ?_⟩
  · rw [hres]
    dsimp only
    rw [hQ, hw]
    refine ⟨fun g k u hu => ?_, h.placed.nodup, nodup_nil, fun _ h => absurd h not_mem_nil,
      fun _ h => absurd h not_mem_nil⟩
    have hut : u ≠ t := fun hut => hqueue g k (hut ▸ hu)
    rw [update_of_ne hut]
    exact h.placed.queued g k u hu
  · rw [hres]
    dsimp only
    rw [hr]
    exact h.ready_nodup
  · rw [hres]
    exact h.requests_nodup
  · rw [hres]
    dsimp only
    rw [hr]
    exact h.ready_requests
  · rw [hres]
    dsimp only
    rw [hr, hQ]
    exact h.ready_queue
  · rw [hres]
    intro u hu
    dsimp only
    rw [hw]
    have hut : u ≠ t := fun hut => hreq (hut ▸ hu)
    rw [update_of_ne hut]
    exact h.requests_wait u hu
  · obtain ⟨hut, hu⟩ := hne u hu
    rw [hres]
    exact (update_of_ne hut _ _).trans (h.suspended u hu)
  · rw [hres]
    intro u hu
    cases hu
    exact update_self _ _ _
  · rw [hres]
    exact h.own
  · rw [hres]
    exact h.crash

theorem operate (ht : s.curproc = some t) {ch' : Channel.St (Item V)} {blocks own : Bool} {g c : Nat}
    {k : Kind}
    (hown : own = true → blocks = false) (heff : blocks = false → Effect s.chan ch')
    (hb : blocks = true → Blocked s.chan ch' t g k c) : Inv (s.operate t ch' blocks own) := by
  have hpark := h.not_parked (h.running_not_suspended ht)
  cases blocks with
  | false => exact h.effect (heff rfl)
  | true =>
    cases own with
    | true => exact absurd (hown rfl) (by decide)
    | false =>
      have hs : ¬ Parked (s.suspend t) t := fun hp => hp.elim hpark.1 fun hp => hp.elim hpark.2.1 fun hp => hp hpark.2.2
      exact (h.suspend t).block (update_self _ _ _) hs (hb rfl)

theorem remove (t : Nat) : Inv (s.remove t) :=
  h.frame ⟨rfl, rfl, rfl⟩ rfl rfl rfl rfl h.suspended fun u hu => by cases hu

theorem die (ht : s.curproc = some t) :
    Inv { s with co := update s.co t .dead, curproc := none } := by
  refine h.frame ⟨rfl, rfl, rfl⟩ rfl rfl rfl rfl (fun u hu => ?_) fun u hu => by cases hu
  have hut : u ≠ t := fun hut => h.running_not_suspended ht (hut ▸ h.suspended u hu)
  exact (update_of_ne hut _ _).trans (h.suspended u hu)

theorem terminate (ht : s.curproc = some t) (hrep : Reports s) {err : Option Err}
    (herr : ∀ e, err = some e → TwoColons e) : Inv (s.terminate t err) := by
  obtain ⟨msg, hmsg⟩ : ∃ msg, message (s.ctxt t).name err = some msg := by
    cases err with
    | none => exact ⟨[], rfl⟩
    | some e => exact Option.isSome_iff_exists.1 ((isSome_errstr _ e).2 (herr e rfl))
  unfold St.terminate
  dsimp only
  rw [hmsg]
  dsimp only
  rcases hrep t ht with hsync | ⟨c, hsync, hno⟩ <;> rw [hsync] <;> dsimp only
  · exact (h.die ht).remove t
  · rw [if_neg hno]
    exact ((h.die ht).effect (effect_send _ hno)).remove t

theorem act (ht : s.curproc = some t) {a : Act V} {s' : St V} (hfit : Fits s a)
    (hs : Sched.act s t a = some s') : Inv s' := by
  have hpark := h.not_parked (h.running_not_suspended ht)
  have hnot : ¬ Parked (s.suspend t) t := fun hp => hp.elim hpark.1 fun hp => hp.elim hpark.2.1 fun hp => hp hpark.2.2
  have hco : (s.suspend t).co t = .suspended := update_self _ _ _
  cases a with
  | reply | noReply | next => cases hs
  | request own =>
    obtain rfl : own = false := hfit
    cases hs
    exact (h.suspend t).request hco hnot
  | create size =>
    cases hs
    exact h.effect (effect_create size)
  | send c v own =>
    dsimp only [Sched.act] at hs
    split_ifs at hs
    cases hs
    exact h.operate ht (fun ho => decide_eq_false (hfit ho)) (fun hb => effect_send _ (of_decide_eq_false hb))
      fun hb => blocked_send _ (of_decide_eq_true hb)
  | recv c own =>
    dsimp only [Sched.act] at hs
    split_ifs at hs
    cases hs
    exact h.operate ht (fun ho => decide_eq_false (hfit ho)) (fun hb => effect_recv (of_decide_eq_false hb))
      fun hb => blocked_recv (of_decide_eq_true hb)
  | goOn i =>
    dsimp only [Sched.act] at hs
    rw [h.own] at hs
    cases hs
  | spawn child args =>
    dsimp only [Sched.act] at hs
    split_ifs at hs with hborn
    cases hs
    have hchild := h.not_parked (t := child) (by rw [hborn]; decide)
    have hne : child ≠ t := fun heq => by
      have := h.running t ht
      rw [← heq, hborn] at this
      cases this
    refine Inv.ready (s := { s with
      procs := update s.procs child true
      ctxt := update s.ctxt child (s.ctxt t)
      co := update s.co child .suspended
      args := update s.args child args }) ?_ (update_self _ _ _)
      fun hp => hp.elim hchild.1 fun hp => hp.elim hchild.2.1 fun hp => hp hchild.2.2
    refine h.frame ⟨rfl, rfl, rfl⟩ rfl rfl rfl rfl (fun u hu => ?_) fun u hu => ?_
    · by_cases huc : u = child
      · rw [huc]
        exact update_self _ _ _
      · exact (update_of_ne huc _ _).trans (h.suspended u hu)
    · have hut : u = t := Option.some.inj (hu.symm.trans ht)
      rw [hut]
      exact (update_of_ne hne.symm _ _).trans (h.running t ht)
  | app name sync =>
    dsimp only [Sched.act] at hs
    repeat' split at hs
    all_goals cases hs
    all_goals exact h.frame ⟨rfl, rfl, rfl⟩ rfl rfl rfl rfl h.suspended h.running
  | resume u ended =>
    dsimp only [Sched.act] at hs
    rw [if_neg hfit] at hs
    cases hs
    exact h
  | yield gen =>
    cases hs
    cases gen with
    | false => exact h.suspend t
    | true => exact (h.suspend t).ready hco hnot
  | exit =>
    cases hs
    exact h.terminate ht hfit fun e he => by cases he
  | raise e =>
    cases hs
    exact h.terminate ht hfit.1 fun e' he => Option.some.inj he ▸ hfit.2

theorem step {a : Act V} {s' : St V} (hargs : ∀ t, s.args t < LUAI_MAXCSTACK) (hfit : Fits s a)
    (hs : Sched.step s a = some s') : Inv s' := by
  obtain ⟨t, hcur, hact⟩ | ⟨hcur, hpoll⟩ := step_cases hs
  · exact h.act hcur hfit hact
  have hless : ∀ s₁ : St V, s₁.chan = s.chan → s₁.runq.Sublist s.runq → s₁.requests.Sublist s.requests →
      s₁.co = s.co → s₁.curproc = s.curproc → s₁.own = s.own → s₁.crash = s.crash → Inv s₁ :=
    fun s₁ hchan hrunq hreq hco hcur hown hcrash => h.less (by rw [hchan]) (by rw [hchan])
      (by rw [hchan]; exact hrunq.append_right _) hreq hco hcur hown hcrash
  cases hpoll with
  | @reply t hmem =>
    exact Inv.resume (hless _ rfl (List.Sublist.refl _) (erase_sublist ..) rfl rfl rfl rfl) (hargs t)
      (h.suspended t (.inr (.inl hmem))) (fun hr => h.ready_requests t hr hmem) h.requests_nodup.not_mem_erase
      fun g k => h.placed.not_queued (h.requests_wait t hmem)
  | gone => exact hless _ rfl (List.Sublist.refl _) (erase_sublist ..) rfl rfl rfl rfl
  | noReply =>
    refine h.less rfl rfl ?_ (List.Sublist.refl _) rfl rfl rfl rfl
    dsimp only
    rw [append_nil]
    exact sublist_append_right _ _
  | @next t runq hrunq =>
    have hmem : t ∈ s.runq ++ s.chan.rdyq := by
      rw [hrunq]
      exact mem_cons_self
    have hnd := h.ready_nodup
    rw [hrunq] at hnd
    exact Inv.resume (hless _ rfl (by rw [hrunq]; exact sublist_cons_self _ _) (List.Sublist.refl _) rfl rfl rfl rfl)
      (hargs t) (h.suspended t (.inl hmem)) (nodup_cons.1 hnd).1 (h.ready_requests t hmem) (h.ready_queue t hmem)
  | again => exact hless _ rfl (List.Sublist.refl _) (List.Sublist.refl _) rfl rfl rfl rfl

end

end Inv

section Args
variable {s s' : St V}

theorem args_operate (t : Nat) (ch : Channel.St (Item V)) (blocks own : Bool) :
    (s.operate t ch blocks own).args = s.args := by
  unfold St.operate
  split_ifs <;> rfl

theorem args_terminate (t : Nat) (err : Option Err) : (s.terminate t err).args = s.args := by
  unfold St.terminate
  dsimp only
  repeat' split
  all_goals rfl

theorem args_resume (h : ∀ t, s.args t < LUAI_MAXCSTACK) (u t : Nat) : (s.resume u).args t < LUAI_MAXCSTACK := by
  unfold St.resume
  split_ifs
  · exact h t
  · dsimp only
    by_cases ht : t = u
    · rw [ht, update_self]
      decide
    · rw [update_of_ne ht]
      exact h t
  · exact h t

theorem args_act {t : Nat} {a : Act V} (h : ∀ t, s.args t < LUAI_MAXCSTACK) (hfit : Fits s a)
    (hs : act s t a = some s') (u : Nat) : s'.args u < LUAI_MAXCSTACK := by
  have hsame : s'.args = s.args → s'.args u < LUAI_MAXCSTACK := fun heq => heq ▸ h u
  cases a with
  | reply | noReply | next => cases hs
  | request own =>
    cases hs
    split <;> exact h u
  | create size =>
    cases hs
    exact h u
  | send c v own =>
    dsimp only [act] at hs
    split_ifs at hs
    cases hs
    exact hsame (args_operate ..)
  | recv c own =>
    dsimp only [act] at hs
    split_ifs at hs
    cases hs
    exact hsame (args_operate ..)
  | goOn i | app name sync =>
    dsimp only [act] at hs
    repeat' split at hs
    all_goals cases hs
    all_goals exact h u
  | spawn child args =>
    dsimp only [act] at hs
    split_ifs at hs
    cases hs
    show update s.args child args u < _
    by_cases hu : u = child
    · rw [hu, update_self]
      exact hfit
    · rw [update_of_ne hu]
      exact h u
  | resume v ended =>
    dsimp only [act] at hs
    cases hs
    split <;> exact h u
  | yield gen =>
    cases hs
    split <;> exact h u
  | exit | raise e =>
    cases hs
    exact hsame (args_terminate ..)

theorem args_step {a : Act V} (h : ∀ t, s.args t < LUAI_MAXCSTACK) (hfit : Fits s a) (hs : step s a = some s') :
    ∀ t, s'.args t < LUAI_MAXCSTACK := by
  obtain ⟨t, -, hact⟩ | ⟨-, hpoll⟩ := step_cases hs
  · exact args_act h hfit hact
  cases hpoll with
  | reply | next => exact args_resume (by exact h) _
  | gone | noReply | again => exact h

end Args

/-- Along every run in which what ends can report at once and with two colons, nothing blocks in a coroutine of a
task's own, no task resumes the coroutine of another, and `unpack` can take the arguments of each. -/
theorem scheduler_always (name : Bytes) {acts : List (Act V)} (h : Along step Fits (St.init name) acts) :
    Always step Sound (St.init name) acts :=
  (h.always (I := fun s => Inv s ∧ ∀ t, s.args t < LUAI_MAXCSTACK)
    (fun _ _ _ hI hfit hs => ⟨hI.1.step hI.2 hfit hs, args_step hI.2 hfit hs⟩)
    ⟨Inv.init name, fun _ => Nat.zero_lt_succ 7999⟩).mono fun _ hI => hI.1.sound

/-- `init` makes a channel and a task, and waits for it on the channel. The task runs an application to its end. -/
def waiting (name : Bytes) : List (Act Nat) :=
  [.noReply, .next, .create 0, .spawn 2 0, .recv 0 false, .next, .noReply, .next, .app name (.chan 0), .exit]

theorem scheduler_waiting : Always step Sound (St.init [0x61]) (waiting [0x62]) ∧
    (run step (St.init [0x61]) (waiting [0x62])).map (fun s => (s.chan.rdyq, s.procs 2)) = some ([1], false) := by
  refine ⟨scheduler_always [0x61] ?_, rfl⟩
  refine Along.cons trivial rfl <| Along.cons trivial rfl <| Along.cons trivial rfl <|
    Along.cons (show 0 < LUAI_MAXCSTACK by decide) rfl <| Along.cons (by intro h; cases h) rfl <| Along.cons trivial rfl <| Along.cons trivial rfl <|
    Along.cons trivial rfl <| Along.cons trivial rfl <| Along.cons ?_ rfl trivial
  intro t ht
  cases ht
  exact .inr ⟨0, rfl, by decide⟩

/-- `init` does not wait: the report of the application makes the scheduler yield. -/
def unheard (name : Bytes) : List (Act Nat) :=
  [.noReply, .next, .create 0, .spawn 2 0, .yield true, .next, .noReply, .next, .app name (.chan 0), .exit]

theorem unheard_yields : ¬ ∀ (name : Bytes) (acts : List (Act Nat)), Always step Sound (St.init name) acts := by
  intro h
  have hrun : (run step (St.init [0x61]) (unheard [0x62])).map (fun s => s.crash) = some (some .yielded) := rfl
  obtain ⟨s, hs, hcrash⟩ := Option.map_eq_some_iff.1 hrun
  have hnone := (h [0x61] _ _ (List.prefix_refl _) s hs).1
  rw [hcrash] at hnone
  cases hnone

end Node9.Sched
