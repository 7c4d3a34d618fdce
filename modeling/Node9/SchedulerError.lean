import Node9.SchedulerRun

/-!
# What an error of a task does to the others

`contained_iff`: the error of a task ends that task only, in all that follows, exactly if the scheduler has resumed the
task, the value raised has two colons, the report can be sent at once to where it belongs, and nothing is under way that
would bring up the task again.
-/

namespace Node9.Sched
open Buf Channel Steps Function List

variable {V : Type} {s s' : St V} {t : Nat} {e : Err}

/-- The scheduler goes on. -/
structure Up (s : St V) : Prop where
  crash : s.crash = none
  halted : s.halted = false

/-- The task `t` raises `e`: when it runs, or when another task has resumed its coroutine. -/
inductive Raises (s : St V) (t : Nat) (e : Err) : Act V → Prop
  | task (h : s.curproc = some t) : Raises s t e (.raise e)
  | nested {u : Nat} (h : s.curproc = some u) (hne : u ≠ t) (hco : s.co t = .suspended) :
      Raises s t e (.resume t (some (some e)))

/-- `t` is not ready, no reply to it is due, and it is in no list of a channel. -/
structure Idle (s : St V) (t : Nat) : Prop where
  ready : t ∉ s.runq ++ s.chan.rdyq
  requests : t ∉ s.requests
  queue : ∀ g k, t ∉ s.chan.queue g k

/-- `t` has ended, and nothing will bring it up again. -/
structure Forgotten (s : St V) (t : Nat) : Prop where
  procs : s.procs t = false
  co : s.co t = .dead
  curproc : s.curproc ≠ some t
  idle : Idle s t

/-- `send` of `m` on `c` by `t`: it is in the buffer, or is left to another task that waits in `recv` of `c`. -/
inductive Reported (ch ch' : Channel.St (Item V)) (t c : Nat) (m : Msg (Item V)) : Prop
  | buffered (h : ch' = { ch with
      sent := ch.sent ++ [m]
      chans := Function.update ch.chans c { ch.chans c with buff := (ch.chans c).buff ++ [m] } })
  | received {r : Nat} {rs : List Nat} (hr : r ≠ t) (hw : ch.wait r = some ⟨.recv, c, ch.latest⟩)
    (h : ch' = { ch with
      sent := ch.sent ++ [m]
      chans := Function.update ch.chans ch.latest { ch.chans ch.latest with
        pending := (ch.chans ch.latest).pending ++ [m], receivers := rs }
      rdyq := ch.rdyq ++ [r]
      woken := ch.woken ++ [(ch.wait r, c)] })
    (hrs : (ch.chans ch.latest).receivers = r :: rs)

structure Contained (s : St V) (t : Nat) (e : Err) (s' : St V) : Prop where
  goes_on : Up s' ∧ s'.curproc = none
  /-- also in all that follows -/
  removed : ∀ acts, Always step (Forgotten · t) s' acts
  others : ∀ u, u ≠ t → s'.procs u = s.procs u ∧ s'.ctxt u = s.ctxt u ∧ s'.co u = s.co u ∧
    s'.chan.wait u = s.chan.wait u
  queues : s'.runq = s.runq ∧ s'.requests = s.requests ∧ s'.own = s.own ∧ s'.replying = s.replying ∧
    s'.args = s.args
  silent : (s.ctxt t).sync = .none → s'.chan = s.chan
  reported : ∀ c, (s.ctxt t).sync = .chan c → ∃ msg, errstr (s.ctxt t).name e = some msg ∧
    Reported s.chan s'.chan t c ⟨.report t (s.ctxt t).name msg, c⟩

/-- The first task in the lists that `send` goes through is another one that waits in `recv` of `c`. -/
def Heard (ch : Channel.St (Item V)) (t c : Nat) : Prop :=
  ∃ r rs, (ch.chans ch.latest).receivers = r :: rs ∧ r ≠ t ∧ ch.wait r = some ⟨.recv, c, ch.latest⟩

/-! ### A task that has ended stays so -/

section Forgotten
variable {ch ch' : Channel.St (Item V)} {u c : Nat}

/-- What an operation of `u` puts into the lists of the channels and into `rdyq`. -/
def Stirs (ch ch' : Channel.St (Item V)) (u : Nat) : Prop :=
  (∀ g k x, x ∈ ch'.queue g k → x ∈ ch.queue g k ∨ x = u) ∧
    ∀ x, x ∈ ch'.rdyq → x ∈ ch.rdyq ∨ ∃ g k, x ∈ ch.queue g k

theorem Effect.stirs (h : Effect ch ch') (u : Nat) : Stirs ch ch' u := by
  cases h with
  | quiet hQ _ hr =>
    refine ⟨fun g k x hx => ?_, fun x hx => .inl (hr ▸ hx)⟩
    rcases hQ g k with heq | heq
    · exact .inl (heq ▸ hx)
    · exact absurd (heq ▸ hx) not_mem_nil
  | @wake g r k rs hQ hQ' _ hr =>
    refine ⟨fun g' k' x hx => ?_, fun x hx => ?_⟩
    · rw [hQ'] at hx
      split_ifs at hx with heq
      · rw [heq.1, heq.2, hQ]
        exact .inl (mem_cons_of_mem _ hx)
      · exact .inl hx
    · rw [hr] at hx
      rcases mem_append.1 hx with hx | hx
      · exact .inl hx
      · rw [mem_singleton.1 hx]
        exact .inr ⟨g, k, hQ ▸ mem_cons_self⟩

theorem Blocked.stirs {g : Nat} {k : Kind} (h : Blocked ch ch' u g k c) : Stirs ch ch' u := by
  refine ⟨fun g' k' x hx => ?_, fun x hx => .inl (h.rdyq ▸ hx)⟩
  rw [h.queue] at hx
  split_ifs at hx with heq
  · rw [heq.1, heq.2]
    exact (mem_append.1 hx).imp_right mem_singleton.1
  · exact .inl hx

theorem stirs_send (v : Item V) : Stirs ch (ch.send u c v) u := by
  by_cases h : SendBlocks ch c
  · exact (blocked_send v h).stirs
  · exact (effect_send v h).stirs u

theorem stirs_recv : Stirs ch (ch.recv u c) u := by
  by_cases h : RecvBlocks ch c
  · exact (blocked_recv h).stirs
  · exact (effect_recv h).stirs u

theorem stirs_of_eq (hQ : ch'.queue = ch.queue) (hr : ch'.rdyq = ch.rdyq) : Stirs ch ch' u :=
  ⟨fun _ _ _ hx => .inl (hQ ▸ hx), fun _ hx => .inl (hr ▸ hx)⟩

namespace Forgotten
variable (h : Forgotten s t)
include h

/-- Another task `u` does something. -/
theorem of_stirs (hu : u ≠ t) (hprocs : s'.procs t = s.procs t) (hco : s'.co t = s.co t)
    (hcur : s'.curproc ≠ some t) (hrunq : s'.runq = s.runq) (hch : Stirs s.chan s'.chan u)
    (hreq : ∀ x ∈ s'.requests, x ∈ s.requests ∨ x = u) : Forgotten s' t := by
  refine ⟨hprocs.trans h.procs, hco.trans h.co, hcur, fun ht => ?_, fun ht => ?_, fun g k ht => ?_⟩
  · rw [hrunq] at ht
    rcases mem_append.1 ht with ht | ht
    · exact h.idle.ready (mem_append_left _ ht)
    rcases hch.2 t ht with ht | ⟨g, k, ht⟩
    · exact h.idle.ready (mem_append_right _ ht)
    · exact h.idle.queue g k ht
  · exact (hreq t ht).elim h.idle.requests fun heq => hu heq.symm
  · exact (hch.1 g k t ht).elim (h.idle.queue g k) fun heq => hu heq.symm

theorem ready (hu : u ≠ t) : Forgotten (s.ready u) t := by
  refine ⟨h.procs, h.co, h.curproc, fun ht => ?_, h.idle.requests, h.idle.queue⟩
  rw [St.ready, ← append_assoc] at ht
  exact (mem_append.1 ht).elim h.idle.ready fun ht => hu (mem_singleton.1 ht).symm

theorem suspend (hu : u ≠ t) : Forgotten (s.suspend u) t :=
  h.of_stirs hu rfl (update_of_ne hu.symm _ _) (by nofun) rfl (stirs_of_eq rfl rfl) fun _ => .inl

theorem operate (hu : u ≠ t) {blocks own : Bool} (hch : Stirs s.chan ch' u) :
    Forgotten (s.operate u ch' blocks own) t := by
  unfold St.operate
  split_ifs
  · exact h.of_stirs hu rfl rfl h.curproc rfl hch fun _ => .inl
  · exact h.of_stirs hu rfl rfl h.curproc rfl hch fun _ => .inl
  · have hop : Forgotten { s with chan := ch' } t := h.of_stirs hu rfl rfl h.curproc rfl hch fun _ => .inl
    exact hop.suspend hu

theorem terminate (hu : u ≠ t) (err : Option Err) : Forgotten (s.terminate u err) t := by
  have hco : update s.co u Co.dead t = s.co t := update_of_ne hu.symm _ _
  have hprocs : update s.procs u false t = s.procs t := update_of_ne hu.symm _ _
  unfold St.terminate
  dsimp only
  cases message (s.ctxt u).name err with
  | none => exact h.of_stirs hu rfl hco h.curproc rfl (stirs_of_eq rfl rfl) fun _ => .inl
  | some msg =>
    dsimp only
    cases (s.ctxt u).sync with
    | none => exact h.of_stirs hu hprocs hco (by nofun) rfl (stirs_of_eq rfl rfl) fun _ => .inl
    | other => exact h.of_stirs hu rfl hco h.curproc rfl (stirs_of_eq rfl rfl) fun _ => .inl
    | chan c =>
      dsimp only
      split_ifs
      · exact h.of_stirs hu rfl hco h.curproc rfl (stirs_send _) fun _ => .inl
      · exact h.of_stirs hu hprocs hco (by nofun) rfl (stirs_send _) fun _ => .inl

theorem resume (hu : u ≠ t) : Forgotten (s.resume u) t := by
  obtain ⟨hQ, -, hr⟩ := Inv.queue_goOn s.chan u
  unfold St.resume
  split_ifs
  · exact h.of_stirs hu rfl rfl h.curproc rfl (stirs_of_eq rfl rfl) fun _ => .inl
  · exact h.of_stirs hu rfl (update_of_ne hu.symm _ _) (fun heq => hu (Option.some.inj heq)) rfl (stirs_of_eq hQ hr)
      fun _ => .inl
  · exact h.of_stirs hu rfl rfl h.curproc rfl (stirs_of_eq rfl rfl) fun _ => .inl

theorem act (hcur : s.curproc = some u) {a : Act V} (hs : Sched.act s u a = some s') : Forgotten s' t := by
  have hu : u ≠ t := fun heq => h.curproc (heq ▸ hcur)
  have hborn : s.co t ≠ .unborn := by rw [h.co]; decide
  cases a with
  | reply | noReply | next => cases hs
  | request own =>
    cases hs
    have hreq : Forgotten { s with requests := s.requests ++ [u] } t :=
      h.of_stirs hu rfl rfl h.curproc rfl (stirs_of_eq rfl rfl) fun x hx =>
        (mem_append.1 hx).imp_right mem_singleton.1
    split
    · exact hreq
    · exact hreq.suspend hu
  | create size =>
    cases hs
    exact h.of_stirs hu rfl rfl h.curproc rfl ((effect_create size).stirs u) fun _ => .inl
  | send c v own =>
    dsimp only [Sched.act] at hs
    split_ifs at hs
    cases hs
    exact h.operate hu (stirs_send _)
  | recv c own =>
    dsimp only [Sched.act] at hs
    split_ifs at hs
    cases hs
    exact h.operate hu stirs_recv
  | goOn i =>
    dsimp only [Sched.act] at hs
    repeat' split at hs
    all_goals cases hs
    · exact h.of_stirs hu rfl rfl h.curproc rfl (stirs_of_eq (Inv.queue_takePending _ _ _) rfl) fun _ => .inl
    · exact h.of_stirs hu rfl rfl h.curproc rfl (stirs_of_eq rfl rfl) fun _ => .inl
  | spawn child args =>
    dsimp only [Sched.act] at hs
    split_ifs at hs with hchild
    cases hs
    have hne : child ≠ t := fun heq => hborn (heq ▸ hchild)
    refine Forgotten.ready ?_ hne
    exact h.of_stirs hu (update_of_ne hne.symm _ _) (update_of_ne hne.symm _ _) h.curproc rfl (stirs_of_eq rfl rfl)
      fun _ => .inl
  | app name sync =>
    dsimp only [Sched.act] at hs
    repeat' split at hs
    all_goals cases hs
    all_goals exact h.of_stirs hu rfl rfl h.curproc rfl (stirs_of_eq rfl rfl) fun _ => .inl
  | resume v ended =>
    cases hs
    split
    · next hv =>
      have hne : v ≠ t := fun heq => by
        rw [heq, h.co] at hv
        cases hv
      obtain ⟨hQ, -, hr⟩ := Inv.queue_goOn s.chan v
      exact h.of_stirs hu rfl (update_of_ne hne.symm _ _) h.curproc rfl (stirs_of_eq hQ hr) fun _ => .inl
    · exact h
  | yield gen =>
    cases hs
    split
    · exact (h.suspend hu).ready hu
    · exact h.suspend hu
  | exit | raise e =>
    cases hs
    exact h.terminate hu _

/-- The scheduler goes through its lists. -/
theorem less (hprocs : s'.procs t = s.procs t) (hco : s'.co t = s.co t) (hcur : s'.curproc ≠ some t)
    (hready : s'.runq ++ s'.chan.rdyq ⊆ s.runq ++ s.chan.rdyq) (hreq : s'.requests ⊆ s.requests)
    (hQ : s'.chan.queue = s.chan.queue) : Forgotten s' t :=
  ⟨hprocs.trans h.procs, hco.trans h.co, hcur, fun ht => h.idle.ready (hready ht), fun ht => h.idle.requests (hreq ht),
    hQ ▸ h.idle.queue⟩

theorem step {a : Act V} (hs : Sched.step s a = some s') : Forgotten s' t := by
  obtain ⟨u, hcur, hact⟩ | ⟨hcur, hpoll⟩ := step_cases hs
  · exact h.act hcur hact
  cases hpoll with
  | @reply u hmem =>
    have hu : u ≠ t := fun heq => h.idle.requests (heq ▸ hmem)
    exact Forgotten.resume (h.less rfl rfl h.curproc (Subset.refl _) (erase_subset ..) rfl) hu
  | gone => exact h.less rfl rfl h.curproc (Subset.refl _) (erase_subset ..) rfl
  | noReply =>
    refine h.less rfl rfl h.curproc ?_ (Subset.refl _) rfl
    dsimp only
    rw [append_nil]
    exact subset_append_right ..
  | @next u runq hrunq =>
    have hu : u ≠ t := fun heq => h.idle.ready (by rw [hrunq, heq]; exact mem_cons_self)
    refine Forgotten.resume (h.less rfl rfl h.curproc ?_ (Subset.refl _) rfl) hu
    rw [hrunq]
    exact subset_cons_self ..
  | again => exact h.less rfl rfl h.curproc (Subset.refl _) (Subset.refl _) rfl

end Forgotten

end Forgotten

theorem step_act (h : Up s) {u : Nat} (hcur : s.curproc = some u) (a : Act V) : step s a = act s u a := by
  have hgo : ¬ ((s.crash.isSome || s.halted) = true) := by
    rw [h.crash, h.halted]
    decide
  unfold step
  rw [if_neg hgo, hcur]

section Send
variable {ch : Channel.St (Item V)} {c : Nat} {v : Item V}

theorem send_wake {r : Nat} {rs : List Nat} (hroom : ¬ ch.HasRoom c) (hrs : (ch.chans ch.latest).receivers = r :: rs) :
    ch.send t c v = { ch with
      sent := ch.sent ++ [⟨v, c⟩]
      chans := Function.update ch.chans ch.latest { ch.chans ch.latest with
        pending := (ch.chans ch.latest).pending ++ [⟨v, c⟩], receivers := rs }
      rdyq := ch.rdyq ++ [r]
      woken := ch.woken ++ [(ch.wait r, c)] } := by
  refine (if_neg hroom).trans ?_
  have hg : Channel.St.latest { ch with sent := ch.sent ++ [⟨v, c⟩] } = ch.latest := rfl
  simp only [Channel.St.sendwait, hg]
  rw [pop_cons hrs]
  rfl

theorem wait_send (hblock : ¬ SendBlocks ch c) : (ch.send t c v).wait = ch.wait := by
  by_cases hroom : ch.HasRoom c
  · unfold Channel.St.send
    dsimp only
    rw [if_pos (show Channel.St.HasRoom { ch with sent := ch.sent ++ [⟨v, c⟩] } c from hroom)]
    rfl
  · obtain ⟨r, rs, hrs⟩ := exists_cons_of_ne_nil fun hnil => hblock ⟨hroom, hnil⟩
    rw [send_wake hroom hrs]

theorem reported_iff (hblock : ¬ SendBlocks ch c) :
    Reported ch (ch.send t c v) t c ⟨v, c⟩ ↔ ch.HasRoom c ∨ Heard ch t c := by
  by_cases hroom : ch.HasRoom c
  · exact iff_of_true (.buffered (if_pos hroom)) (.inl hroom)
  obtain ⟨r, rs, hrs⟩ := exists_cons_of_ne_nil fun hnil => hblock ⟨hroom, hnil⟩
  have hsend := send_wake (t := t) (v := v) hroom hrs
  constructor
  · intro h
    cases h with
    | received hr hw h hrs => exact .inr ⟨_, _, hrs, hr, hw⟩
    | buffered h =>
      -- nothing is put in the buffer: somebody was made ready
      have hready : ch.rdyq = ch.rdyq ++ [r] := congrArg Channel.St.rdyq (h.symm.trans hsend)
      simp at hready
  · rintro (h | ⟨r', rs', hrs', hr, hw⟩)
    · exact absurd h hroom
    · exact .received hr hw (send_wake hroom hrs') hrs'

end Send

/-- Nobody is to hear of the end of `t`, or the report goes into the buffer of the sync channel or to another task that
waits there. -/
inductive Reportable (s : St V) (t : Nat) : Prop
  | silent (h : (s.ctxt t).sync = .none)
  | sent {c : Nat} (h : (s.ctxt t).sync = .chan c) (hr : s.chan.HasRoom c ∨ Heard s.chan t c)

theorem Reported.mem_iff {ch ch' : Channel.St (Item V)} {c : Nat} {m : Msg (Item V)} (h : Reported ch ch' t c m) :
    (t ∈ ch'.rdyq ↔ t ∈ ch.rdyq) ∧ ∀ g k, t ∈ ch'.queue g k ↔ t ∈ ch.queue g k := by
  cases h with
  | buffered h =>
    rw [h]
    refine ⟨Iff.rfl, fun g k => ?_⟩
    by_cases hg : g = c <;> cases k <;> simp [Channel.St.queue, hg, update_of_ne]
  | @received r rs hr hw h hrs =>
    rw [h]
    refine ⟨by simp [hr.symm], fun g k => ?_⟩
    by_cases hg : g = ch.latest <;> cases k <;> simp [Channel.St.queue, hg, update_of_ne, hrs, hr.symm]

/-- What is due to `t` at its end is due to it afterwards. -/
theorem idle_iff {s' : St V} (hrunq : s'.runq = s.runq) (hreq : s'.requests = s.requests)
    (hr : t ∈ s'.chan.rdyq ↔ t ∈ s.chan.rdyq) (hQ : ∀ g k, t ∈ s'.chan.queue g k ↔ t ∈ s.chan.queue g k) :
    Idle s' t ↔ Idle s t := by
  have hready : t ∈ s'.runq ++ s'.chan.rdyq ↔ t ∈ s.runq ++ s.chan.rdyq := by
    rw [hrunq, mem_append, mem_append, hr]
  constructor
  · rintro ⟨h1, h2, h3⟩
    exact ⟨mt hready.2 h1, hreq ▸ h2, fun g k => mt (hQ g k).2 (h3 g k)⟩
  · rintro ⟨h1, h2, h3⟩
    exact ⟨mt hready.1 h1, hreq ▸ h2, fun g k => mt (hQ g k).1 (h3 g k)⟩

theorem contained_raise (h : Up s) (ht : s.curproc = some t) (hinit : t ≠ 1) (e : Err) :
    (∃ s', step s (.raise e) = some s' ∧ Contained s t e s') ↔ TwoColons e ∧ Reportable s t ∧ Idle s t := by
  have hhalt : (t == 1) = false := by simpa using hinit
  have hstep : step s (.raise e) = some (s.terminate t (some e)) := step_act h ht _
  have hothers : ∀ u, u ≠ t → update s.procs t false u = s.procs u ∧ s.ctxt u = s.ctxt u ∧
      update s.co t Co.dead u = s.co u := fun u hu => ⟨update_of_ne hu _ _, rfl, update_of_ne hu _ _⟩
  have hforgotten : ∀ s' : St V, s'.procs = update s.procs t false → s'.co = update s.co t .dead → s'.curproc = none →
      Idle s' t → ∀ acts, Always step (Forgotten · t) s' acts := fun s' hprocs hco hcur hidle acts =>
    always_of_step (fun _ _ _ hf hs => hf.step hs)
      ⟨by rw [hprocs, update_self], by rw [hco, update_self], by rw [hcur]; nofun, hidle⟩
  have hcrashed : ∀ x : Crash, (s.terminate t (some e)).crash = some x →
      ¬ ∃ s', step s (.raise e) = some s' ∧ Contained s t e s' := by
    rintro x hx ⟨s', hs, hc⟩
    rw [hstep] at hs
    cases hs
    cases hc.goes_on.1.crash.symm.trans hx
  cases hmsg : errstr (s.ctxt t).name e with
  | none =>
    have hcolons : ¬ TwoColons e := by
      rw [← isSome_errstr (s.ctxt t).name, hmsg]
      decide
    exact iff_of_false (hcrashed .value (by simp [St.terminate, message, hmsg])) fun h => hcolons h.1
  | some msg =>
    have hcolons : TwoColons e := by
      rw [← isSome_errstr (s.ctxt t).name, hmsg]
      rfl
    rw [and_iff_right hcolons]
    cases hsync : (s.ctxt t).sync with
    | other =>
      refine iff_of_false (hcrashed .sync (by simp [St.terminate, message, hmsg, hsync])) fun h => ?_
      rcases h.1 with h | ⟨h, -⟩ <;> cases hsync.symm.trans h
    | none =>
      have hs' : s.terminate t (some e) = { s with co := update s.co t .dead }.remove t := by
        simp [St.terminate, message, hmsg, hsync]
      rw [hstep, hs', and_iff_right (.silent hsync)]
      have hidle : Idle ({ s with co := update s.co t .dead }.remove t) t ↔ Idle s t :=
        idle_iff rfl rfl Iff.rfl fun _ _ => Iff.rfl
      constructor
      · rintro ⟨s', hs, hc⟩
        cases hs
        exact hidle.1 (hc.removed []).start.idle
      · intro hi
        exact ⟨_, rfl, {
          goes_on := ⟨⟨h.crash, hhalt⟩, rfl⟩
          removed := hforgotten _ rfl rfl rfl (hidle.2 hi)
          others := fun u hu => ⟨(hothers u hu).1, rfl, (hothers u hu).2.2, rfl⟩
          queues := ⟨rfl, rfl, rfl, rfl, rfl⟩
          silent := fun _ => rfl
          reported := fun c hc => by cases hsync.symm.trans hc }⟩
    | chan c =>
      have hsent : Reportable s t → s.chan.HasRoom c ∨ Heard s.chan t c := by
        rintro (h | ⟨h, hr⟩) <;> cases hsync.symm.trans h
        exact hr
      by_cases hblock : SendBlocks s.chan c
      · refine iff_of_false (hcrashed .yielded (by simp [St.terminate, message, hmsg, hsync, hblock])) fun h => ?_
        obtain hroom | ⟨r, rs, hrs, -⟩ := hsent h.1
        · exact hblock.1 hroom
        · exact cons_ne_nil r rs (hrs.symm.trans hblock.2)
      have hs' : s.terminate t (some e) = { s with
          co := update s.co t .dead
          chan := s.chan.send t c (.report t (s.ctxt t).name msg) }.remove t := by
        simp [St.terminate, message, hmsg, hsync, hblock]
      rw [hstep, hs']
      have hidle : Reported s.chan (s.chan.send t c (.report t (s.ctxt t).name msg)) t c
          ⟨.report t (s.ctxt t).name msg, c⟩ → (Idle ({ s with
            co := update s.co t .dead
            chan := s.chan.send t c (.report t (s.ctxt t).name msg) }.remove t) t ↔ Idle s t) :=
        fun hrep => idle_iff rfl rfl hrep.mem_iff.1 hrep.mem_iff.2
      constructor
      · rintro ⟨s', hs, hc⟩
        cases hs
        obtain ⟨msg', hmsg', hrep⟩ := hc.reported c hsync
        cases hmsg.symm.trans hmsg'
        exact ⟨.sent hsync ((reported_iff hblock).1 hrep), (hidle hrep).1 (hc.removed []).start.idle⟩
      · rintro ⟨hr, hi⟩
        have hrep := (reported_iff (t := t) (v := .report t (s.ctxt t).name msg) hblock).2 (hsent hr)
        exact ⟨_, rfl, {
          goes_on := ⟨⟨h.crash, hhalt⟩, rfl⟩
          removed := hforgotten _ rfl rfl rfl ((hidle hrep).2 hi)
          others := fun u hu => ⟨(hothers u hu).1, rfl, (hothers u hu).2.2, congrFun (wait_send hblock) u⟩
          queues := ⟨rfl, rfl, rfl, rfl, rfl⟩
          silent := fun hnone => by cases hsync.symm.trans hnone
          reported := fun d hd => by
            cases hsync.symm.trans hd
            exact ⟨msg, hmsg, hrep⟩ }⟩

theorem contained_iff (h : Up s) (hinit : t ≠ 1) {a : Act V} (ha : Raises s t e a) :
    (∃ s', step s a = some s' ∧ Contained s t e s') ↔
      s.curproc = some t ∧ TwoColons e ∧ Reportable s t ∧ Idle s t := by
  cases ha with
  | task ht => exact (contained_raise h ht hinit e).trans (and_iff_right ht).symm
  | @nested u hu hne hco =>
    refine iff_of_false ?_ fun h => hne (Option.some.inj (hu.symm.trans h.1))
    rintro ⟨s', hs, hc⟩
    rw [step_act h hu] at hs
    cases hs
    have hcur := hc.goes_on.2
    rw [if_pos hco] at hcur
    cases hu.symm.trans hcur

theorem contained_awaited : ∃ s : St Nat, run step (St.init [0x61]) (waiting [0x62]).dropLast = some s ∧
    ∃ s', step s (.raise (.text [0x6d, colon, 0x31, colon, 0x20, 0x78])) = some s' ∧
      Contained s 2 (.text [0x6d, colon, 0x31, colon, 0x20, 0x78]) s' := by
  refine ⟨_, rfl, (contained_iff ⟨rfl, rfl⟩ (by decide) (.task rfl)).2
    ⟨rfl, ⟨[0x6d], [0x31], [0x20, 0x78], rfl⟩, .sent (c := 0) rfl (.inr ⟨1, [], rfl, by decide, rfl⟩), by decide,
      by decide, fun g k => ?_⟩⟩
  match g, k with
  | 0, .send => exact not_mem_nil
  | 0, .recv => exact show 2 ∉ [1] by decide
  | _ + 1, .send => exact not_mem_nil
  | _ + 1, .recv => exact not_mem_nil

/-- `error(nil)` in a task that `init` waits for. -/
theorem nil_uncontained : ¬ ∀ (name : Bytes) (acts : List (Act Nat)) (s : St Nat) (t : Nat) (e : Err) (a : Act Nat),
    run step (St.init name) acts = some s → Up s → t ≠ 1 → Raises s t e a →
      ∃ s', step s a = some s' ∧ Contained s t e s' := by
  intro h
  have hrun : ∃ s : St Nat, run step (St.init [0x61]) (waiting [0x62]).dropLast = some s ∧ Up s ∧
      Raises s 2 .other (.raise .other) ∧ (step s (.raise .other)).map (fun s' => s'.crash) = some (some .value) :=
    ⟨_, rfl, ⟨rfl, rfl⟩, .task rfl, rfl⟩
  obtain ⟨s, hs, hup, hraises, hraise⟩ := hrun
  obtain ⟨s', hs', hc⟩ := h _ _ s 2 .other _ hs hup (by decide) hraises
  rw [hs', Option.map_some, hc.goes_on.1.crash] at hraise
  cases hraise

end Node9.Sched
