import Node9.ExPlaces

/-!
# The flushes of an export

Clients that do not use a tag again while it is outstanding get at most one reply to each request, and none to
a request after the reply to a flush of it. Three things make that work. The requests of a connection go into
the queue, from there to the slaves and on to the work list in the order in which they came in (`Line`), so
that of two requests with the same tag the flush finds the later one. The request that a flush is sent for is
the only one outstanding with that tag (`Tagged`). And all the way until the reply to the flush is sent, either
that request is past or the flush is on its track (`Tracked`).

A flush of a flush is answered at once: `exflushed` does not look for flushes.
-/

namespace Node9.ExSlave
open Steps Locks Function List
open Option hiding any_eq_true

/-- The request with which the slave is on its way from the queue to the work list. -/
def Slave.pushing : Slave → Option Nat
  | .wantPush q _ | .push q _ => some q
  | _ => none

/-- The reader takes the work list apart, or has done so. -/
def Reader.closing : Reader → Bool
  | .abandon | .wantShutReq _ | .shutReq _ | .dead => true
  | _ => false

structure Line (m : Mem) (r : Nat → Reader) (sl : Nat → Slave) : Prop where
  own : ∀ fs n, (r fs).own = some n → m.fs n = fs ∧ ∀ a < m.fresh, m.fs a = fs → a ≤ n
  work : ∀ fs, (m.work fs).Pairwise (· > ·)
  queue : m.queue.Pairwise fun a b => m.fs a = m.fs b → a < b
  work_queue : ∀ n ∈ m.queue, ∀ a ∈ m.work (m.fs n), a < n
  push_queue : ∀ i q, (sl i).pushing = some q → ∀ n ∈ m.queue, m.fs n = m.fs q → q < n
  work_push : ∀ i q, (sl i).pushing = some q → ∀ a ∈ m.work (m.fs q), a < q
  listed : ∀ i q, (sl i).job = some q → (sl i).pushed = true → (r (m.fs q)).closing = false → q ∈ m.work (m.fs q)

theorem line_init : Line init.mem init.reader init.slave where
  own _ _ h := nomatch h
  work _ := List.Pairwise.nil
  queue := List.Pairwise.nil
  work_queue _ h := nomatch h
  push_queue _ _ h := nomatch h
  work_push _ _ h := nomatch h
  listed _ _ h := nomatch h

theorem Slave.job_of_pushing {p : Slave} {q : Nat} (h : p.pushing = some q) : p.job = some q := by
  cases p <;> simp_all [Slave.pushing, Slave.job]

namespace Line
variable {m m' : Mem} {r : Nat → Reader} {sl : Nat → Slave} {loc : Nat → Place} {fs i q : Nat} {p : Reader} {p' : Slave}
  {tag : UInt16} {oldtag : Option UInt16} {qs ws : List Nat}

section
variable (h : Line m r sl)
include h

theorem mem (hfs : m'.fs = m.fs) (hfresh : m'.fresh = m.fresh) (hq : m'.queue.Sublist m.queue)
    (hw : m'.work = m.work) : Line m' r sl where
  own := by rw [hfs, hfresh]; exact h.own
  work := by rw [hw]; exact h.work
  queue := by rw [hfs]; exact h.queue.sublist hq
  work_queue n hn := by rw [hfs, hw]; exact h.work_queue n (hq.subset hn)
  push_queue i q hi n hn := by rw [hfs]; exact h.push_queue i q hi n (hq.subset hn)
  work_push := by rw [hfs, hw]; exact h.work_push
  listed := by rw [hfs, hw]; exact h.listed

theorem moveR (hown : p.own = none ∨ p.own = (r fs).own)
    (hcl : (r fs).closing = true → p.closing = true) : Line m (update r fs p) sl := by
  refine { h with own := fun fs' n hn => ?_, listed := fun i q hq hpu hc => h.listed i q hq hpu ?_ }
  · by_cases hf : fs' = fs
    · subst hf
      rw [update_self] at hn
      rcases hown with ho | ho
      · simp [ho] at hn
      · exact h.own fs' n (ho ▸ hn)
    · rw [update_of_ne hf] at hn
      exact h.own fs' n hn
  · by_cases hf : m.fs q = fs
    · rw [hf, update_self] at hc
      rw [hf, Bool.eq_false_iff]
      exact fun hcl' => by simp [hcl hcl'] at hc
    · rwa [update_of_ne hf] at hc

theorem moveS (hpush : p'.pushing = none ∨ p'.pushing = (sl i).pushing)
    (hjob : p'.pushed = true → p'.job = (sl i).job ∧ (sl i).pushed = true) : Line m r (update sl i p') := by
  have hold : ∀ i' q, (update sl i p' i').pushing = some q → (sl i').pushing = some q := by
    intro i' q hi'
    by_cases hi : i' = i
    · subst hi
      rw [update_self] at hi'
      rcases hpush with hp | hp
      · simp [hp] at hi'
      · rwa [← hp]
    · rwa [update_of_ne hi] at hi'
  refine { h with push_queue := fun i' q hq => h.push_queue i' q (hold i' q hq),
                  work_push := fun i' q hq => h.work_push i' q (hold i' q hq),
                  listed := fun i' q hq hpu => ?_ }
  by_cases hi : i' = i
  · subst hi
    rw [update_self] at hq hpu
    obtain ⟨hj, hpu'⟩ := hjob hpu
    exact h.listed i' q (hj ▸ hq) hpu'
  · rw [update_of_ne hi] at hq hpu
    exact h.listed i' q hq hpu

theorem recv (hp : Placed m r sl loc) (hown : p.own = some m.fresh)
    (hcl : p.closing = (r fs).closing) :
    Line (m.recv fs tag oldtag) (update r fs p) sl := by
  have hne : ∀ {n}, loc n ≠ .gone → n ≠ m.fresh := fun hn => ne_of_lt (hp.lt_fresh hn)
  have hqueue : ∀ n ∈ m.queue, (m.recv fs tag oldtag).fs n = m.fs n := fun n hn =>
    update_of_ne (hne (by simp [(hp.queue n).2 hn])) _ _
  have hjob : ∀ i n, (sl i).job = some n → (m.recv fs tag oldtag).fs n = m.fs n := fun i n hn =>
    update_of_ne (hne (by simp [(hp.slave i n).2 hn])) _ _
  constructor
  case own =>
    intro fs' n hn
    by_cases hf : fs' = fs
    · subst hf
      rw [update_self, hown] at hn
      cases hn
      exact ⟨update_self _ _ _, fun a ha _ => Nat.le_of_lt_succ ha⟩
    rw [update_of_ne hf] at hn
    have hn' : n ≠ m.fresh := hne (by simp [(hp.reader fs' n).2 hn])
    refine ⟨(update_of_ne hn' _ _).trans (h.own fs' n hn).1, fun a ha hfa => ?_⟩
    by_cases ha' : a = m.fresh
    · subst ha'
      exact absurd ((update_self _ _ _).symm.trans hfa).symm hf
    · exact (h.own fs' n hn).2 a (Nat.lt_of_le_of_ne (Nat.le_of_lt_succ ha) ha')
        ((update_of_ne ha' _ _).symm.trans hfa)
  case work => exact h.work
  case queue => exact h.queue.imp_of_mem fun ha hb hab hfs => hab (by rwa [hqueue _ ha, hqueue _ hb] at hfs)
  case work_queue =>
    intro n hn
    rw [hqueue n hn]
    exact h.work_queue n hn
  case push_queue =>
    intro i q hi n hn hfs
    rw [hqueue n hn, hjob i q (Slave.job_of_pushing hi)] at hfs
    exact h.push_queue i q hi n hn hfs
  case work_push =>
    intro i q hi
    rw [hjob i q (Slave.job_of_pushing hi)]
    exact h.work_push i q hi
  case listed =>
    intro i q hi hpu
    rw [hjob i q hi]
    intro hc
    refine h.listed i q hi hpu ?_
    by_cases hf : m.fs q = fs
    · rwa [hf, update_self, hcl, ← hf] at hc
    · rwa [update_of_ne hf] at hc

/-- What the reader puts at the end of the queue came in after everything else of its connection. -/
theorem enqueue (hp : Placed m r sl loc) (hr : (r fs).own = some q) : Line (m.enqueue q) r sl := by
  obtain ⟨hfs, hmax⟩ := h.own fs q hr
  have hlast : ∀ n, loc n ≠ .gone → loc n ≠ .reader fs → m.fs n = m.fs q → n < q := by
    intro n hn hn' hf
    refine Nat.lt_of_le_of_ne (hmax n (hp.lt_fresh hn) (hf.trans hfs)) ?_
    rintro rfl
    exact hn' ((hp.reader fs n).2 hr)
  by_cases hq : m.queue = [] ∨ m.tail = m.queue.getLast?
  · have he : (m.enqueue q).queue = m.queue ++ [q] := by
      rcases hq with hq | hq <;> simp [Mem.enqueue, hq]
    have hqueue : ∀ n ∈ m.queue, m.fs n = m.fs q → n < q := fun n hn => by
      have hloc := (hp.queue n).2 hn
      exact hlast n (by simp [hloc]) (by simp [hloc])
    refine { own := h.own, work := h.work, work_push := h.work_push, listed := h.listed,
             queue := ?_, work_queue := ?_, push_queue := ?_ }
    · rw [he, pairwise_append]
      refine ⟨h.queue, pairwise_singleton _ _, fun a ha b hb hf => ?_⟩
      obtain rfl := mem_singleton.1 hb
      exact hqueue a ha hf
    · rw [he]
      intro n hn a ha
      rcases mem_append.1 hn with hn | hn
      · exact h.work_queue n hn a ha
      · obtain rfl := mem_singleton.1 hn
        obtain ⟨hfa, hsl⟩ := hp.work _ a ha
        refine hlast a (fun hg => ?_) (fun hg => ?_) hfa <;> simp [hg, Place.isSlave] at hsl
    · rw [he]
      intro i q' hi n hn hf
      rcases mem_append.1 hn with hn | hn
      · exact h.push_queue i q' hi n hn hf
      · obtain rfl := mem_singleton.1 hn
        have hloc := (hp.slave i q').2 (Slave.job_of_pushing hi)
        exact hlast q' (by simp [hloc]) (by simp [hloc]) hf.symm
  · have he : (m.enqueue q).queue = m.queue := by
      simp only [not_or] at hq
      simp [Mem.enqueue, hq]
    exact h.mem rfl rfl (by rw [he]) rfl

theorem unwork (hws : ws.Sublist (m.work fs)) (hcl : (r fs).closing = true) :
    Line (m.setWork fs ws) r sl := by
  have hsub : ∀ f, ((m.setWork fs ws).work f).Sublist (m.work f) := fun f => by
    by_cases hf : f = fs
    · subst hf
      simpa [Mem.setWork] using hws
    · simp [Mem.setWork, hf]
  refine { own := h.own, queue := h.queue, push_queue := h.push_queue,
           work := fun f => (h.work f).sublist (hsub f),
           work_queue := fun n hn a ha => h.work_queue n hn a ((hsub _).subset ha),
           work_push := fun i q hi a ha => h.work_push i q hi a ((hsub _).subset ha),
           listed := fun i q hi hpu hc => ?_ }
  change (r (m.fs q)).closing = false at hc
  have hf : m.fs q ≠ fs := fun hf => by simp [hf, hcl] at hc
  simpa [Mem.setWork, hf] using h.listed i q hi hpu hc

theorem take (hq : m.queue = q :: qs) (hpush : p'.pushing = some q) (hpu : p'.pushed = false) :
    Line { m with queue := qs } r (update sl i p') := by
  have hqueue := h.queue
  rw [hq, pairwise_cons] at hqueue
  have hsub : ∀ n ∈ qs, n ∈ m.queue := fun n hn => by simp [hq, hn]
  have hmem : q ∈ m.queue := by simp [hq]
  refine { own := h.own, work := h.work, queue := hqueue.2, work_queue := fun n hn => h.work_queue n (hsub n hn),
           push_queue := fun i' q' hi' n hn hf => ?_, work_push := fun i' q' hi' => ?_, listed :=
             fun i' q' hi' hpu' => ?_ }
  all_goals by_cases hi : i' = i
  · rw [hi, update_self, hpush] at hi'
    cases hi'
    exact hqueue.1 n hn hf.symm
  · rw [update_of_ne hi] at hi'
    exact h.push_queue i' q' hi' n (hsub n hn) hf
  · rw [hi, update_self, hpush] at hi'
    cases hi'
    exact h.work_queue q hmem
  · rw [update_of_ne hi] at hi'
    exact h.work_push i' q' hi'
  · simp [hi, hpu] at hpu'
  · rw [update_of_ne hi] at hi' hpu'
    exact h.listed i' q' hi' hpu'

theorem push (hp : Placed m r sl loc) (hs : (sl i).pushing = some q) (hc : (sl i).conn = some fs)
    (hone : ∀ i', (sl i').pushing ≠ none → i' = i) (hpp : p'.pushing = none) (hpj : p'.job = some q) :
    Line (m.setWork fs (q :: m.work fs)) r (update sl i p') := by
  have hfs : m.fs q = fs := some.inj ((hp.conn i q (Slave.job_of_pushing hs)).symm.trans hc)
  have hsame : ∀ f, f ≠ fs → (m.setWork fs (q :: m.work fs)).work f = m.work f := fun f hf => by simp [Mem.setWork, hf]
  have hself : (m.setWork fs (q :: m.work fs)).work fs = q :: m.work fs := by simp [Mem.setWork]
  have hnone : ∀ i' q', (update sl i p' i').pushing ≠ some q' := fun i' q' hi' => by
    by_cases hi : i' = i
    · simp [hi, hpp] at hi'
    · rw [update_of_ne hi] at hi'
      exact hi (hone i' (by simp [hi']))
  refine { own := h.own, queue := h.queue, push_queue := fun i' q' hi' => absurd hi' (hnone i' q'),
           work_push := fun i' q' hi' => absurd hi' (hnone i' q'), work := fun f => ?_,
           work_queue := fun n hn a ha => ?_, listed := fun i' q' hi' hpu hcl => ?_ }
  · by_cases hf : f = fs
    · rw [hf, hself, pairwise_cons]
      exact ⟨fun a ha => h.work_push i q hs a (hfs ▸ ha), h.work fs⟩
    · rw [hsame f hf]
      exact h.work f
  · change a ∈ (m.setWork fs (q :: m.work fs)).work (m.fs n) at ha
    by_cases hf : m.fs n = fs
    · rw [hf, hself] at ha
      rcases mem_cons.1 ha with rfl | ha
      · exact h.push_queue i a hs n hn (hf.trans hfs.symm)
      · exact h.work_queue n hn a (hf ▸ ha)
    · rw [hsame _ hf] at ha
      exact h.work_queue n hn a ha
  · change q' ∈ (m.setWork fs (q :: m.work fs)).work (m.fs q')
    by_cases hi : i' = i
    · rw [hi, update_self, hpj] at hi'
      cases hi'
      simp [hfs, hself]
    rw [update_of_ne hi] at hi' hpu
    have hl := h.listed i' q' hi' hpu hcl
    by_cases hf : m.fs q' = fs
    · rw [hf, hself]
      exact mem_cons_of_mem _ (hf ▸ hl)
    · rwa [hsame _ hf]

theorem done (hp : Placed m r sl loc) (hs : (sl i).job = some q) (hpp : p'.pushing = none)
    (hpj : p'.job = none) : Line (m.setWork fs ((m.work fs).erase q)) r (update sl i p') := by
  have hsub : ∀ f, ((m.setWork fs ((m.work fs).erase q)).work f).Sublist (m.work f) := fun f => by
    by_cases hf : f = fs
    · subst hf
      simpa [Mem.setWork] using erase_sublist
    · simp [Mem.setWork, hf]
  have hold : ∀ i' q', (update sl i p' i').pushing = some q' → (sl i').pushing = some q' := by
    intro i' q' hi'
    by_cases hi : i' = i
    · simp [hi, hpp] at hi'
    · rwa [update_of_ne hi] at hi'
  refine { own := h.own, queue := h.queue, work := fun f => (h.work f).sublist (hsub f),
           work_queue := fun n hn a ha => h.work_queue n hn a ((hsub _).subset ha),
           push_queue := fun i' q' hi' => h.push_queue i' q' (hold i' q' hi'),
           work_push := fun i' q' hi' a ha => h.work_push i' q' (hold i' q' hi') a ((hsub _).subset ha),
           listed := fun i' q' hi' hpu hcl => ?_ }
  by_cases hi : i' = i
  · simp [hi, hpj] at hi'
  rw [update_of_ne hi] at hi' hpu
  have hl := h.listed i' q' hi' hpu hcl
  -- the request that goes is another slave's
  have hne : q' ≠ q := by
    rintro rfl
    have h₁ := (hp.slave i' q').2 hi'
    rw [(hp.slave i q').2 hs] at h₁
    exact hi (Place.slave.inj h₁).symm
  change q' ∈ (m.setWork fs ((m.work fs).erase q)).work (m.fs q')
  by_cases hf : m.fs q' = fs
  · subst hf
    simpa [Mem.setWork] using (mem_erase_of_ne hne).2 hl
  · simpa [Mem.setWork, hf] using hl

end

variable {s s' : St} {op : Op}

section
variable (h : Line s.mem s.reader s.slave)
include h

attribute [local simp] Reader.own Reader.closing Slave.job Slave.pushing Slave.pushed St.set St.unlock

theorem readerStep (hp : Placed s.mem s.reader s.slave loc)
    (hs : readerStep s fs = some s') : Line s'.mem s'.reader s'.slave := by
  unfold ExSlave.readerStep at hs
  cases hpc : s.reader fs <;> simp only [hpc] at hs
  case wantEnq q | wantFlush q | wantShut | wantWork fq | wantAbandon | wantReq fq q | wantShutReq q =>
    obtain ⟨s₁, hs₁, rfl⟩ := map_eq_some_iff.1 hs
    obtain ⟨-, rfl⟩ := lock_eq_some hs₁
    refine h.moveR ?_ ?_ <;> simp [hpc]
  case enq q =>
    cases hs
    refine (h.enqueue hp (show (s.reader fs).own = some q by simp [hpc])).moveR ?_ ?_ <;> simp [hpc]
  case flush fq =>
    split at hs <;> cases hs
    · refine Line.moveR (h.mem rfl rfl eraseP_sublist rfl) ?_ ?_ <;>
      simp [hpc]
    · refine h.moveR ?_ ?_ <;> simp [hpc]
  case work fq =>
    split at hs <;> cases hs
    all_goals refine h.moveR ?_ ?_ <;> simp [hpc]
  case req fq q =>
    split at hs <;> cases hs
    · refine h.moveR ?_ ?_ <;> simp [hpc]
    · refine Line.moveR (h.mem rfl rfl (List.Sublist.refl _) rfl) ?_ ?_ <;>
      simp [hpc]
  case reply fq =>
    cases hs
    refine Line.moveR (h.mem rfl rfl (List.Sublist.refl _) rfl) ?_ ?_ <;>
      simp [hpc]
  case shut =>
    cases hs
    refine Line.moveR (h.mem rfl rfl filter_sublist rfl) ?_ ?_ <;>
      simp [hpc]
  case abandon =>
    split at hs <;> cases hs
    · refine h.moveR ?_ ?_ <;> simp [hpc]
    · next q qs hq =>
      refine (h.unwork (hq ▸ sublist_cons_self q qs) (by simp [hpc])).moveR ?_ ?_ <;>
        simp [hpc]
  case shutReq q =>
    cases hs
    refine Line.moveR (h.mem rfl rfl (List.Sublist.refl _) rfl) ?_ ?_ <;>
      simp [hpc]
  all_goals cases hs

theorem slaveStep (hl : LockInv False s) (hp : Placed s.mem s.reader s.slave loc)
    (hs : slaveStep s i = some s') : Line s'.mem s'.reader s'.slave := by
  unfold ExSlave.slaveStep at hs
  cases hpc : s.slave i <;> simp only [hpc] at hs
  case top | wantTake | wantPush q fs | wantFin q fs err | wantLoop q fs | wantDone q fs =>
    obtain ⟨s₁, hs₁, rfl⟩ := map_eq_some_iff.1 hs
    obtain ⟨-, rfl⟩ := lock_eq_some hs₁
    refine h.moveS ?_ ?_ <;> simp [hpc]
  case take =>
    split at hs <;> cases hs
    · refine h.moveS ?_ ?_ <;> simp
    · next q qs hq => exact h.take hq rfl rfl
  case push q fs =>
    cases hs
    refine h.push hp (by simp [hpc]) (by simp [hpc, Slave.conn]) (fun i' hi' => ?_) rfl rfl
    have hq : Lock.exq ∈ (s.slave i).holds := by simp [hpc, Slave.holds]
    have hq' : Lock.exq ∈ (s.slave i').holds := by
      cases hpc' : s.slave i' <;> simp [hpc', Slave.holds] at hi' ⊢
    cases hl.owned.unique (.slave i') (.slave i) hq' hq
    rfl
  case fin q fs err =>
    split at hs
    · cases hs
      refine Line.moveS (h.mem rfl rfl (List.Sublist.refl _) rfl) ?_ ?_ <;>
        simp [hpc]
    · split at hs <;> cases hs
      all_goals refine h.moveS ?_ ?_ <;> simp [hpc]
  case reply q fs | replyFlush q fs fq =>
    cases hs
    refine Line.moveS (h.mem rfl rfl (List.Sublist.refl _) rfl) ?_ ?_ <;>
      simp [hpc]
  case loop q fs =>
    split at hs <;> cases hs
    all_goals
      refine Line.moveS (h.mem rfl rfl (List.Sublist.refl _) rfl) ?_ ?_ <;>
        simp [hpc]
  case done q fs =>
    cases hs
    exact h.done hp (by simp [hpc]) rfl rfl
  all_goals cases hs

theorem step (hl : LockInv False s) (hp : Placed s.mem s.reader s.slave loc)
    (hs : step s op = some s') : Line s'.mem s'.reader s'.slave := by
  cases op with
  | connect =>
    cases hs
    refine h.moveR ?_ ?_ <;> simp [hl.readers s.nconn]
  | kproc =>
    cases hs
    refine h.moveS ?_ ?_ <;> simp
  | recv fs tag oldtag =>
    simp only [ExSlave.step] at hs
    split at hs <;> cases hs
    next hpc => refine h.recv hp ?_ ?_ <;> cases oldtag <;> simp [hpc]
  | refuse fs tag =>
    simp only [ExSlave.step] at hs
    split at hs <;> cases hs
    next hpc => refine h.recv hp ?_ ?_ <;> simp [hpc]
  | eof fs =>
    simp only [ExSlave.step] at hs
    split at hs <;> cases hs
    next hpc => refine h.moveR ?_ ?_ <;> simp [hpc]
  | reader fs => exact h.readerStep hp hs
  | slave i => exact h.slaveStep hl hp hs
  | wake i | intr i | ret i err =>
    simp only [ExSlave.step] at hs
    split at hs <;> cases hs
    next hpc => refine h.moveS ?_ ?_ <;> simp [hpc]

end

end Line

/-- A client does not use a tag that is outstanding. -/
def Distinct (s : St) : Op → Prop
  | .recv fs tag _ | .refuse fs tag => ∀ n < s.mem.fresh, s.mem.hasTag fs tag n = false
  | _ => True

instance (s : St) : (op : Op) → Decidable (Distinct s op)
  | .recv fs tag _ | .refuse fs tag => inferInstanceAs (Decidable (∀ n < s.mem.fresh, s.mem.hasTag fs tag n = false))
  | .connect | .kproc | .eof _ | .reader _ | .wake _ | .intr _ | .ret _ _ | .slave _ => inferInstanceAs (Decidable True)

/-- No request is linked behind an `exq.tail` that has been unlinked. -/
def TailQueued (s : St) : Op → Prop
  | .reader fs =>
    match s.reader fs with
    | .enq _ => s.mem.queue = [] ∨ s.mem.tail = s.mem.queue.getLast?
    | _ => True
  | _ => True

structure Keeps (m m' : Mem) : Prop where
  fs : m'.fs = m.fs
  tag : m'.tag = m.tag
  oldtag : m'.oldtag = m.oldtag
  fresh : m'.fresh = m.fresh
  target : m'.target = m.target
  sent : m.sent <+: m'.sent

theorem Keeps.refl (m : Mem) : Keeps m m := ⟨rfl, rfl, rfl, rfl, rfl, prefix_refl _⟩

theorem Keeps.reply (m : Mem) (q : Nat) : Keeps m (m.reply q) := ⟨rfl, rfl, rfl, rfl, rfl, prefix_append _ _⟩

theorem step_keeps {s s' : St} {op : Op} (hs : step s op = some s') : Keeps s.mem s'.mem ∨
    ∃ fs tag oldtag, s'.mem = s.mem.recv fs tag oldtag ∧ (op = .recv fs tag oldtag ∨ op = .refuse fs tag) ∧
      (oldtag ≠ none → s'.reader fs = .wantFlush s.mem.fresh) := by
  cases op with
  | reader fs =>
    simp only [step, readerStep, St.lock] at hs
    repeat' split at hs
    all_goals cases hs
    all_goals first | exact .inl (Keeps.refl _) | exact .inl (Keeps.reply _ _) | exact .inl ⟨rfl, rfl, rfl, rfl,
      rfl, prefix_refl _⟩
  | slave i =>
    simp only [step, slaveStep, St.lock] at hs
    repeat' split at hs
    all_goals cases hs
    all_goals first | exact .inl (Keeps.refl _) | exact .inl (Keeps.reply _ _) | exact .inl ⟨rfl, rfl, rfl, rfl,
      rfl, prefix_refl _⟩
  | recv fs tag oldtag =>
    simp only [step] at hs
    split at hs <;> cases hs
    refine .inr ⟨fs, tag, oldtag, rfl, .inl rfl, fun hne => ?_⟩
    obtain ⟨t, rfl⟩ := ne_none_iff_exists'.1 hne
    simp [St.goR]
  | refuse fs tag =>
    simp only [step] at hs
    split at hs <;> cases hs
    exact .inr ⟨fs, tag, none, rfl, .inr rfl, fun hne => absurd rfl hne⟩
  | connect | kproc =>
    cases hs
    exact .inl (Keeps.refl _)
  | eof i | wake i | intr i | ret i err =>
    simp only [step] at hs
    split at hs <;> cases hs
    exact .inl (Keeps.refl _)

structure Tagged (m : Mem) : Prop where
  later : ∀ a b, a < b → b < m.fresh → m.fs a = m.fs b → m.tag a = m.tag b → m.outstanding a = false
  target : ∀ fq q, m.target fq = some q → fq < m.fresh ∧ q < fq ∧ m.fs q = m.fs fq ∧ m.oldtag fq = some (m.tag q)
  aim : ∀ fq x, x < fq → fq < m.fresh → m.fs x = m.fs fq → m.oldtag fq = some (m.tag x) → m.outstanding x = true →
    m.target fq = some x

theorem tagged_init : Tagged init.mem where
  later _ _ _ hb := absurd hb (Nat.not_lt_zero _)
  target _ _ h := nomatch h
  aim _ _ _ hq := absurd hq (Nat.not_lt_zero _)

theorem outstanding_iff {m : Mem} {n : Nat} :
    m.outstanding n = true ↔ n ∉ m.sent ∧ ∀ fq ∈ m.sent, m.target fq ≠ some n := by
  simp [Mem.outstanding]

namespace Tagged
variable {m m' : Mem} {fs : Nat} {tag : UInt16} {oldtag : Option UInt16}

theorem keeps (h : Tagged m) (hk : Keeps m m') : Tagged m' := by
  have hout : ∀ n, m'.outstanding n = true → m.outstanding n = true := fun n hn => by
    rw [outstanding_iff] at hn ⊢
    exact ⟨fun hm => hn.1 (hk.sent.subset hm), fun fq hfq => hk.target ▸ hn.2 fq (hk.sent.subset hfq)⟩
  refine ⟨fun a b hab hb hfs htag => ?_, fun fq q hq => ?_, fun fq x hx hq hfs ht hout' => ?_⟩
  · rw [hk.fs, hk.fresh, hk.tag] at *
    have hold := h.later a b hab hb hfs htag
    rw [Bool.eq_false_iff] at hold ⊢
    exact fun hn => hold (hout a hn)
  · rw [hk.fs, hk.fresh, hk.tag, hk.oldtag]
    exact h.target fq q (hk.target ▸ hq)
  · rw [hk.fs, hk.fresh, hk.tag, hk.oldtag, hk.target] at *
    exact h.aim fq x hx hq hfs ht (hout x hout')

theorem recv (h : Tagged m) (hsent : ∀ n ∈ m.sent, n < m.fresh) (hd : ∀ n < m.fresh, m.hasTag fs tag n = false) :
    Tagged (m.recv fs tag oldtag) := by
  have hout : ∀ n, (m.recv fs tag oldtag).outstanding n = m.outstanding n := fun n => by
    rw [Bool.eq_iff_iff, outstanding_iff, outstanding_iff]
    refine and_congr_right fun _ => forall₂_congr fun fq hfq => ?_
    have hne := ne_of_lt (hsent fq hfq)
    simp only [Mem.recv, update_of_ne hne]
  have hold : ∀ n < m.fresh, (m.recv fs tag oldtag).fs n = m.fs n ∧ (m.recv fs tag oldtag).tag n = m.tag n ∧
      (m.recv fs tag oldtag).oldtag n = m.oldtag n ∧ (m.recv fs tag oldtag).target n = m.target n := fun n hn => by
    have hne := ne_of_lt hn
    simp only [Mem.recv, update_of_ne hne, and_self]
  have hnew : (m.recv fs tag oldtag).fs m.fresh = fs ∧ (m.recv fs tag oldtag).tag m.fresh = tag ∧
      (m.recv fs tag oldtag).oldtag m.fresh = oldtag := by
    simp only [Mem.recv, update_self, and_self]
  refine ⟨fun a b hab hb hfs htag => ?_, fun fq q hq => ?_, fun fq x hx hfq hfs ht ho => ?_⟩
  · rw [hout]
    rcases Nat.lt_or_eq_of_le (Nat.le_of_lt_succ hb) with hb | rfl
    · obtain ⟨hfa, hta, -⟩ := hold a (lt_trans hab hb)
      obtain ⟨hfb, htb, -⟩ := hold b hb
      exact h.later a b hab hb (by rwa [hfa, hfb] at hfs) (by rwa [hta, htb] at htag)
    · obtain ⟨hfa, hta, -⟩ := hold a hab
      have hda := hd a hab
      rw [hfa, hnew.1] at hfs
      rw [hta, hnew.2.1] at htag
      simpa [Mem.hasTag, hfs, htag] using hda
  · by_cases hlt : fq < m.fresh
    · obtain ⟨hf, -, ho, ht⟩ := hold fq hlt
      rw [ht] at hq
      obtain ⟨-, hlt', hfs', ho'⟩ := h.target fq q hq
      obtain ⟨hf', ht', -, -⟩ := hold q (lt_trans hlt' hlt)
      exact ⟨Nat.lt_succ_of_lt hlt, hlt', by rw [hf, hf', hfs'], by rw [ho, ht', ho']⟩
    by_cases heq : fq = m.fresh
    · subst heq
      simp only [Mem.recv, update_self, bind_eq_some_iff] at hq
      obtain ⟨t, rfl, hfind⟩ := hq
      have hlt' : q < m.fresh := mem_range.1 (mem_of_find?_eq_some hfind)
      have htag := find?_some hfind
      simp only [Mem.hasTag, decide_eq_true_eq] at htag
      obtain ⟨hf', ht', -, -⟩ := hold q hlt'
      exact ⟨Nat.lt_succ_self _, hlt', by rw [hnew.1, hf', htag.1], by rw [hnew.2.2, ht', htag.2.1]⟩
    · simp only [Mem.recv, update_of_ne heq] at hq
      exact absurd (h.target fq q hq).1 hlt
  · rw [hout] at ho
    rcases Nat.lt_or_eq_of_le (Nat.le_of_lt_succ hfq) with hfq | rfl
    · obtain ⟨hf, -, ho', ht'⟩ := hold fq hfq
      obtain ⟨hfx, htx, -, -⟩ := hold x (lt_trans hx hfq)
      rw [ht']
      exact h.aim fq x hx hfq (by rwa [hf, hfx] at hfs) (by rwa [ho', htx] at ht) ho
    obtain ⟨hfx, htx, -, -⟩ := hold x hx
    rw [hfx, hnew.1] at hfs
    rw [htx, hnew.2.2] at ht
    subst ht
    have hx' : m.hasTag fs (m.tag x) x = true := by simp [Mem.hasTag, hfs, ho]
    have hsome : ((range m.fresh).find? (m.hasTag fs (m.tag x))).isSome = true :=
      find?_isSome.2 ⟨x, mem_range.2 hx, hx'⟩
    obtain ⟨y, hy⟩ := isSome_iff_exists.1 hsome
    have hylt : y < m.fresh := mem_range.1 (mem_of_find?_eq_some hy)
    have hytag := find?_some hy
    simp only [Mem.hasTag, decide_eq_true_eq] at hytag
    -- of two requests with the same tag, only the later one can be outstanding
    have hxy : y = x := by
      rcases Nat.lt_trichotomy y x with hlt | heq | hlt
      · have hno := h.later y x hlt hx (by rw [hytag.1, hfs]) hytag.2.1
        simp [hytag.2.2] at hno
      · exact heq
      · have hno := h.later x y hlt hylt (by rw [hytag.1, hfs]) hytag.2.1.symm
        simp [ho] at hno
    subst hxy
    simp only [Mem.recv, update_self, bind_some, hy]

end Tagged

/-- The flush that the reader handles. -/
def Reader.flushing : Reader → Option Nat
  | .wantFlush fq | .flush fq | .wantWork fq | .work fq | .wantReq fq _ | .req fq _ => some fq
  | _ => none

structure Kinds (m : Mem) (r : Nat → Reader) (sl : Nat → Slave) : Prop where
  queue : ∀ n ∈ m.queue, m.oldtag n = none
  enq : ∀ fs n, r fs = .wantEnq n ∨ r fs = .enq n → m.oldtag n = none
  flushing : ∀ fs n, (r fs).flushing = some n → m.oldtag n ≠ none
  flush : ∀ q, ∀ n ∈ m.flush q, m.oldtag n ≠ none
  answer : ∀ i n, (sl i).answers = some n → m.oldtag n ≠ none

theorem kinds_init : Kinds init.mem init.reader init.slave where
  queue _ h := nomatch h
  enq _ _ h := by rcases h with h | h <;> cases h
  flushing _ _ h := nomatch h
  flush _ _ h := nomatch h
  answer _ _ h := nomatch h

theorem Reader.own_of_flushing {p : Reader} {n : Nat} (h : p.flushing = some n) : p.own = some n := by
  cases p <;> simp_all [Reader.flushing, Reader.own]

namespace Kinds
variable {s s' : St} {loc : Nat → Place} {op : Op}

theorem readerStep {fs : Nat} (h : Kinds s.mem s.reader s.slave) (hs : readerStep s fs = some s') :
    Kinds s'.mem s'.reader s'.slave := by
  cases h
  simp only [ExSlave.readerStep, St.lock] at hs
  repeat' split at hs
  all_goals cases hs
  all_goals constructor
  all_goals simp only [St.goR, St.set, St.unlock, Mem.enqueue, Mem.setFlush, Mem.setWork, Mem.reply,
    update_apply]
  all_goals grind -linarith [Reader.flushing]

theorem slaveStep {i : Nat} (h : Kinds s.mem s.reader s.slave) (hs : slaveStep s i = some s') :
    Kinds s'.mem s'.reader s'.slave := by
  cases h
  simp only [ExSlave.slaveStep, St.lock] at hs
  repeat' split at hs
  all_goals cases hs
  all_goals constructor
  all_goals simp only [St.goS, St.set, St.unlock, Mem.setFlush, Mem.setWork, Mem.finish, Mem.reply,
    update_apply]
  all_goals grind -linarith [Slave.answers]

theorem recv {m : Mem} {r : Nat → Reader} {sl : Nat → Slave} {fs : Nat} {tag : UInt16} {oldtag : Option UInt16}
    {p : Reader} (h : Kinds m r sl) (hp : Placed m r sl loc) (henq : p = .wantEnq m.fresh ∨ p = .enq m.fresh →
    oldtag = none)
    (hne : ∀ n, p = .wantEnq n ∨ p = .enq n → n = m.fresh)
    (hfl : ∀ n, p.flushing = some n → n = m.fresh ∧ oldtag ≠ none) :
    Kinds (m.recv fs tag oldtag) (update r fs p) sl := by
  have hold : ∀ n, loc n ≠ .gone → (m.recv fs tag oldtag).oldtag n = m.oldtag n := fun n hn =>
    update_of_ne (ne_of_lt (hp.lt_fresh hn)) _ _
  have hnew : (m.recv fs tag oldtag).oldtag m.fresh = oldtag := update_self _ _ _
  constructor
  case queue =>
    intro n hn
    rw [hold n (by simp [(hp.queue n).2 hn])]
    exact h.queue n hn
  case enq =>
    intro fs' n hn
    by_cases hf : fs' = fs
    · subst hf
      simp only [update_self] at hn
      obtain rfl := hne n hn
      rw [hnew]
      exact henq hn
    · simp only [update_of_ne hf] at hn
      have hown : (r fs').own = some n := by rcases hn with hn | hn <;> simp [hn, Reader.own]
      rw [hold n (by simp [(hp.reader fs' n).2 hown])]
      exact h.enq fs' n hn
  case flushing =>
    intro fs' n hn
    by_cases hf : fs' = fs
    · subst hf
      rw [update_self] at hn
      obtain ⟨rfl, hne⟩ := hfl n hn
      rwa [hnew]
    · rw [update_of_ne hf] at hn
      rw [hold n (by simp [(hp.reader fs' n).2 (Reader.own_of_flushing hn)])]
      exact h.flushing fs' n hn
  case flush =>
    intro q n hn
    by_cases hq : q = m.fresh
    · simp [hq, Mem.recv] at hn
    · simp only [Mem.recv, update_of_ne hq] at hn
      rw [hold n (by simp [(hp.flush q n).2 hn])]
      exact h.flush q n hn
  case answer =>
    intro i n hn
    rw [hold n (by simp [(hp.answer i n).2 hn])]
    exact h.answer i n hn

theorem step (h : Kinds s.mem s.reader s.slave) (hp : Placed s.mem s.reader s.slave loc) (hs : step s op = some s') :
    Kinds s'.mem s'.reader s'.slave := by
  cases op with
  | reader fs => exact h.readerStep hs
  | slave i => exact h.slaveStep hs
  | recv fs tag oldtag =>
    simp only [ExSlave.step] at hs
    split at hs <;> cases hs
    refine h.recv hp ?_ ?_ ?_ <;> cases oldtag <;> simp [Reader.flushing]
  | refuse fs tag =>
    simp only [ExSlave.step] at hs
    split at hs <;> cases hs
    refine h.recv hp ?_ ?_ ?_ <;> simp [Reader.flushing]
  | connect | kproc =>
    cases hs
    cases h
    constructor
    all_goals simp only [St.goR, St.goS, update_apply]
    all_goals grind -linarith [Reader.flushing, Slave.answers]
  | eof i | wake i | intr i | ret i err =>
    simp only [ExSlave.step] at hs
    split at hs <;> cases hs
    cases h
    constructor
    all_goals simp only [St.goR, St.goS, St.unlock, update_apply]
    all_goals grind -linarith [Reader.flushing, Slave.answers]

end Kinds

/-! ### On the track of a request -/

/-- The reader is on its way to `q`. -/
def Reader.chases (work : List Nat) (q : Nat) : Reader → Prop
  | .wantFlush _ | .flush _ => True
  | .wantWork _ | .work _ => q ∈ work
  | .wantReq _ x | .req _ x => q = x
  | _ => False

/-- A flush in that place is on its way to `q`, or waits for it. -/
def Chases (m : Mem) (r : Nat → Reader) (q : Nat) : Place → Prop
  | .reader fs => (r fs).chases (m.work fs) q
  | .flush x => q = x
  | _ => False

structure Tracked (s : St) (loc : Nat → Place) : Prop where
  locks : LockInv False s
  placed : Placed s.mem s.reader s.slave loc
  line : Line s.mem s.reader s.slave
  tagged : Tagged s.mem
  kinds : Kinds s.mem s.reader s.slave
  finished : ∀ n < s.mem.fresh, s.mem.finished n = true → Past s.slave loc n
  track : ∀ fq q, s.mem.target fq = some q → s.mem.oldtag q = none →
    Past s.slave loc q ∨ Chases s.mem s.reader q (loc fq)
  order : ∀ fq q, s.mem.target fq = some q → s.mem.oldtag q = none → ¬ [fq, q].Sublist s.mem.sent

theorem tracked_init : Tracked init fun _ => .gone where
  locks := lockInv_init False
  placed := placed_init
  line := line_init
  tagged := tagged_init
  kinds := kinds_init
  finished _ hn := absurd hn (Nat.not_lt_zero _)
  track _ _ h := nomatch h
  order _ _ h := nomatch h

/-- What a step leaves as it is, except for the reader that makes it. -/
structure Drift (s : St) (op : Op) (s' : St) : Prop where
  flush : ∀ q n, n ∈ s.mem.flush q → n ∈ s'.mem.flush q ∨ q = s.mem.fresh ∨
    ∃ i fs, op = .slave i ∧ s.slave i = .loop q fs ∧ s'.slave i = .replyFlush q fs n
  reader : ∀ fs n, op ≠ .reader fs → (s.reader fs).own = some n → s'.reader fs = s.reader fs
  work : ∀ fs n, op ≠ .reader fs → n ∈ s.mem.work fs → n ∈ s'.mem.work fs ∨
    ∃ i, op = .slave i ∧ s.slave i = .done n fs ∧ s'.slave i = .top
  finished : ∀ n, s'.mem.finished n = true → s.mem.finished n = true ∨
    ∃ i, op = .slave i ∧ (s'.slave i).job = some n ∧ (s'.slave i).late = true
  sent : s'.mem.sent = s.mem.sent ∨ ∃ n, s'.mem.sent = s.mem.sent ++ [n] ∧ ((∃ fs, s.reader fs = .reply n) ∨
    (∃ i fs, s.slave i = .reply n fs) ∨ ∃ i q fs, s.slave i = .replyFlush q fs n)

theorem drift_reader {s s' : St} {fs : Nat} (hs : readerStep s fs = some s') : Drift s (.reader fs) s' := by
  simp only [readerStep, St.lock] at hs
  repeat' split at hs
  all_goals cases hs
  all_goals constructor
  all_goals simp only [St.goR, St.set, St.unlock, Mem.enqueue, Mem.setFlush, Mem.setWork, Mem.reply,
    update_apply]
  all_goals grind -linarith

theorem drift_slave {s s' : St} {i : Nat} (hs : slaveStep s i = some s') : Drift s (.slave i) s' := by
  simp only [slaveStep, St.lock] at hs
  repeat' split at hs
  all_goals cases hs
  all_goals constructor
  all_goals simp only [St.goS, St.set, St.unlock, Mem.setFlush, Mem.setWork, Mem.finish, Mem.reply,
    update_apply]
  all_goals grind -linarith [Slave.job, Slave.late]

theorem step_drift {s s' : St} {op : Op} (hl : LockInv False s) (hs : step s op = some s') : Drift s op s' := by
  have hnew : (s.reader s.nconn).own = none := by rw [hl.readers _ (le_refl _)]; rfl
  cases op with
  | reader fs => exact drift_reader hs
  | slave i => exact drift_slave hs
  | connect | kproc =>
    cases hs
    constructor
    all_goals simp only [St.goR, St.goS, update_apply]
    all_goals grind -linarith
  | recv fs tag oldtag | refuse fs tag =>
    simp only [step] at hs
    split at hs <;> cases hs
    constructor
    all_goals simp only [St.goR, St.set, Mem.recv, update_apply]
    all_goals grind -linarith [Reader.own]
  | eof i | wake i | intr i | ret i err =>
    simp only [step] at hs
    split at hs <;> cases hs
    constructor
    all_goals simp only [St.goR, St.goS, St.unlock, update_apply]
    all_goals grind -linarith [Reader.own]

namespace Tracked
variable {s s' : St} {loc loc' : Nat → Place} {op : Op} {fs fq q : Nat}

section
variable (h : Tracked s loc)
include h

theorem past_of_sent (hfq : fq ∈ s.mem.sent) (ht : s.mem.target fq = some q)
    (hq : s.mem.oldtag q = none) : Past s.slave loc q := by
  rcases h.track fq q ht hq with hp | hc
  · exact hp
  · rcases (h.placed.sent fq hfq).2 with hg | ⟨i, hi, -⟩
    · simp [hg, Chases] at hc
    · simp [hi, Chases] at hc

theorem outstanding (hq : s.mem.oldtag q = none) (hp : ¬ Past s.slave loc q) :
    s.mem.outstanding q = true :=
  outstanding_iff.2 ⟨h.placed.not_sent hp, fun _ hfq ht => hp (h.past_of_sent hfq ht hq)⟩

theorem queue_or_slave (hfq : (s.reader fs).own = some fq) (ht : s.mem.target fq = some q)
    (hq : s.mem.oldtag q = none) (hp : ¬ Past s.slave loc q) : q ∈ s.mem.queue ∨ ∃ i, (s.slave i).job = some q := by
  obtain ⟨hlt, hlt', hfs, -⟩ := h.tagged.target fq q ht
  cases hloc : loc q with
  | queue => exact .inl ((h.placed.queue q).1 hloc)
  | slave i => exact .inr ⟨i, (h.placed.slave i q).1 hloc⟩
  | gone => exact (hp (.inl hloc)).elim
  | flush x => exact (h.kinds.flush x q ((h.placed.flush x q).1 hloc) hq).elim
  | answer i => exact (h.kinds.answer i q ((h.placed.answer i q).1 hloc) hq).elim
  | reader fs' =>
    -- the reader of that connection has the flush
    have hown := (h.placed.reader fs' q).1 hloc
    have hfs' : fs' = fs := by rw [← (h.line.own fs' q hown).1, hfs, (h.line.own fs fq hfq).1]
    subst hfs'
    have heq : fq = q := some.inj (hfq.symm.trans hown)
    omega

theorem eq_of_isOld (hfq : (s.reader fs).own = some fq) {x : Nat} (hx : x ∈ s.mem.queue)
    (hold : s.mem.isOld fs fq x = true) : s.mem.target fq = some x := by
  have hloc := (h.placed.queue x).2 hx
  have hlt := h.placed.lt_fresh (n := x) (by simp [hloc])
  have hlt' := h.placed.lt_fresh (n := fq) (by simp [(h.placed.reader fs fq).2 hfq])
  obtain ⟨hfs, hmax⟩ := h.line.own fs fq hfq
  simp only [Mem.isOld, Bool.and_eq_true, beq_iff_eq] at hold
  have hne : x ≠ fq := by
    rintro rfl
    rw [(h.placed.reader fs x).2 hfq] at hloc
    cases hloc
  refine h.tagged.aim fq x (Nat.lt_of_le_of_ne (hmax x hlt hold.1) hne) hlt' (by rw [hold.1, hfs]) hold.2.symm ?_
  exact h.outstanding (h.kinds.queue x hx) (by simp [Past, hloc])

/-- Of the requests on the work list with the tag of the flush, the one that it was sent for comes first. -/
theorem find_work (ht : s.mem.target fq = some q)
    (hq : s.mem.oldtag q = none) (hp : ¬ Past s.slave loc q) (hmem : q ∈ s.mem.work fs) :
    (s.mem.work fs).find? (fun x => some (s.mem.tag x) == s.mem.oldtag fq) = some q := by
  obtain ⟨-, -, -, hold⟩ := h.tagged.target fq q ht
  have hsome : ((s.mem.work fs).find? fun x => some (s.mem.tag x) == s.mem.oldtag fq).isSome = true :=
    find?_isSome.2 ⟨q, hmem, by simp [hold]⟩
  obtain ⟨x, hx⟩ := isSome_iff_exists.1 hsome
  rw [hx]
  obtain ⟨hpx, as, bs, hsplit, has⟩ := find?_eq_some_iff_append.1 hx
  have htag : s.mem.tag x = s.mem.tag q := by simpa [hold] using hpx
  have hw : ∀ n ∈ s.mem.work fs, n < s.mem.fresh ∧ s.mem.fs n = fs := fun n hn => by
    obtain ⟨hf, hsl⟩ := h.placed.work fs n hn
    exact ⟨h.placed.lt_fresh fun hg => by simp [hg, Place.isSlave] at hsl, hf⟩
  have hsorted := h.line.work fs
  rw [hsplit, pairwise_append, pairwise_cons] at hsorted
  rw [hsplit] at hmem hw
  rcases mem_append.1 hmem with hm | hm
  · have hno := has q hm
    simp [hold] at hno
  rcases mem_cons.1 hm with rfl | hm
  · rfl
  · -- a later request with the same tag
    have hgt : q < x := hsorted.2.1.1 q hm
    have hno := h.tagged.later q x hgt (hw x (by simp)).1 (by rw [(hw x (by simp)).2, (hw q hmem).2]) htag.symm
    simp [h.outstanding hq hp] at hno

/-- The reader goes on with a flush: it stays on the track of the request, or the request is past. -/
theorem readerStep (hs : readerStep s fs = some s') (hp' : Placed s'.mem s'.reader s'.slave loc')
    (hgoes : ∀ n, (loc n).goes (loc' n)) (hfq : (s.reader fs).own = some fq) (ht : s.mem.target fq = some q)
    (hq : s.mem.oldtag q = none) (hnp : ¬ Past s.slave loc q) (hch : (s.reader fs).chases (s.mem.work fs) q) :
    Past s'.slave loc' q ∨ Chases s'.mem s'.reader q (loc' fq) := by
  obtain ⟨hlt, hlt', hfsq, hold⟩ := h.tagged.target fq q ht
  have hfs := (h.line.own fs fq hfq).1
  have hisOld : s.mem.isOld fs fq q = true := by simp [Mem.isOld, hfsq, hfs, hold]
  -- when the reader still has the flush, where it is says how it chases `q`
  have hstay : ∀ p, s'.reader fs = p → p.own = some fq → p.chases (s'.mem.work fs) q →
      Past s'.slave loc' q ∨ Chases s'.mem s'.reader q (loc' fq) := by
    intro p hr hown hc
    rw [(hp'.reader fs fq).2 (by rw [hr, hown])]
    right
    rw [Chases, hr]
    exact hc
  unfold ExSlave.readerStep at hs
  cases hpc : s.reader fs <;> simp only [hpc, Reader.chases, Reader.own, some.injEq, reduceCtorEq] at hs hch hfq
  case wantFlush fq' =>
    obtain ⟨s₁, hs₁, rfl⟩ := map_eq_some_iff.1 hs
    obtain ⟨-, rfl⟩ := lock_eq_some hs₁
    subst hfq
    exact hstay (.flush fq') (by simp [St.goR]) rfl trivial
  case flush fq' =>
    subst hfq
    have hown : (s.reader fs).own = some fq' := by simp [hpc, Reader.own]
    split at hs <;> cases hs
    · next hany =>
      obtain ⟨x, hx, hxold⟩ := any_eq_true.1 hany
      have hxq : x = q := some.inj ((h.eq_of_isOld hown hx hxold).symm.trans ht)
      subst hxq
      -- it is the only one, and it has been taken out
      have hout : x ∉ s.mem.queue.eraseP (s.mem.isOld fs fq') := by
        obtain ⟨y, as, bs, -, hy, hsplit, herase⟩ := exists_of_eraseP hx hxold
        have hyq : y = x := by
          have hy' := h.eq_of_isOld hown (by simp [hsplit]) hy
          exact some.inj (hy'.symm.trans ht)
        have hnd := h.placed.queue_nodup
        rw [hsplit, hyq] at hnd
        rw [herase]
        have hnd' := nodup_middle.1 hnd
        exact (nodup_cons.1 hnd').1
      have hgo := hgoes x
      rw [(h.placed.queue x).2 hx] at hgo
      rcases hgo with hloc | hloc | ⟨i, hloc⟩
      · exact absurd ((hp'.queue x).1 hloc) hout
      · exact .inl (.inl hloc)
      · have hloc₀ := (h.placed.slave i x).2 ((hp'.slave i x).1 hloc)
        rw [(h.placed.queue x).2 hx] at hloc₀
        cases hloc₀
    · next hany =>
      have hnq : q ∉ s.mem.queue := fun hm => hany (any_eq_true.2 ⟨q, hm, hisOld⟩)
      obtain hm | ⟨i, hi⟩ := h.queue_or_slave hown ht hq hnp
      · exact absurd hm hnq
      refine hstay (.wantWork fq') (by simp [St.goR]) rfl ?_
      -- the reader has `exq.l`, so the slave is not between the queue and the work list
      have hpushed : (s.slave i).pushed = true := by
        by_contra hpu
        have hexq : Lock.exq ∈ (s.slave i).holds := by
          cases hsl : s.slave i <;> simp [hsl, Slave.job, Slave.pushed, Slave.holds] at hi hpu ⊢
        have hexq' : Lock.exq ∈ (s.reader fs).holds fs := by simp [hpc, Reader.holds]
        cases h.locks.owned.unique (.slave i) (.reader fs) hexq hexq'
      have hl := h.line.listed i q hi hpushed (by rw [hfsq, hfs, hpc]; rfl)
      rw [hfsq, hfs] at hl
      exact hl
  case wantWork fq' =>
    obtain ⟨s₁, hs₁, rfl⟩ := map_eq_some_iff.1 hs
    obtain ⟨-, rfl⟩ := lock_eq_some hs₁
    subst hfq
    exact hstay (.work fq') (by simp [St.goR]) rfl hch
  case work fq' =>
    subst hfq
    simp only [h.find_work ht hq hnp hch] at hs
    cases hs
    exact hstay (.wantReq fq' q) (by simp [St.goR]) rfl rfl
  case wantReq fq' x =>
    obtain ⟨s₁, hs₁, rfl⟩ := map_eq_some_iff.1 hs
    obtain ⟨-, rfl⟩ := lock_eq_some hs₁
    subst hfq
    exact hstay (.req fq' x) (by simp [St.goR]) rfl hch
  case req fq' x =>
    subst hfq hch
    split at hs <;> cases hs
    · next hfin => exact absurd (h.finished q (lt_trans hlt' hlt) hfin) hnp
    · right
      rw [(hp'.flush q fq').2 (by simp [St.goR, St.unlock, St.set, Mem.setFlush])]
      rfl

theorem otherStep (hd : Drift s op s') (hp' : Placed s'.mem s'.reader s'.slave loc')
    (hgoes : ∀ n, (loc n).goes (loc' n)) (hop : op ≠ .reader fs) (hfq : (s.reader fs).own = some fq)
    (hch : (s.reader fs).chases (s.mem.work fs) q) : Past s'.slave loc' q ∨ Chases s'.mem s'.reader q (loc' fq) := by
  have hr := hd.reader fs fq hop hfq
  have hloc' := (hp'.reader fs fq).2 (by rw [hr, hfq])
  have hwork : q ∈ s.mem.work fs → q ∈ s'.mem.work fs ∨ Past s'.slave loc' q := fun hm => by
    rcases hd.work fs q hop hm with hm | ⟨i, -, hi, hi'⟩
    · exact .inl hm
    -- its slave is done with it
    have hgo := hgoes q
    rw [(h.placed.slave i q).2 (by simp [hi, Slave.job])] at hgo
    rcases hgo with hloc | hloc
    · have hjob := (hp'.slave i q).1 hloc
      simp [hi', Slave.job] at hjob
    · exact .inr (.inl hloc)
  rw [hloc', Chases, hr]
  cases hpc : s.reader fs <;> simp only [hpc, Reader.chases] at hch ⊢
  case wantWork fq' | work fq' => exact (hwork hch).symm
  all_goals first | exact .inr trivial | exact .inr hch

theorem track_step (hs : step s op = some s') (hd : Drift s op s')
    (hp' : Placed s'.mem s'.reader s'.slave loc') (hpast : ∀ n < s.mem.fresh, Past s.slave loc n → Past s'.slave loc' n)
    (hgoes : ∀ n, (loc n).goes (loc' n)) (hfq : fq < s.mem.fresh) (ht : s.mem.target fq = some q)
    (hq : s.mem.oldtag q = none) : Past s'.slave loc' q ∨ Chases s'.mem s'.reader q (loc' fq) := by
  have hlt := lt_trans (h.tagged.target fq q ht).2.1 hfq
  by_cases hnp : Past s.slave loc q
  · exact .inl (hpast q hlt hnp)
  have hch := (h.track fq q ht hq).resolve_left hnp
  cases hloc : loc fq <;> simp only [hloc, Chases] at hch
  case reader fs =>
    have hown := (h.placed.reader fs fq).1 hloc
    by_cases hop : op = .reader fs
    · subst hop
      exact h.readerStep hs hp' hgoes hown ht hq hnp hch
    · exact h.otherStep hd hp' hgoes hop hown hch
  case flush x =>
    subst hch
    rcases hd.flush q fq ((h.placed.flush q fq).1 hloc) with hm | rfl | ⟨i, fs, -, -, hi⟩
    · right
      rw [(hp'.flush q fq).2 hm]
      rfl
    · exact absurd hlt (lt_irrefl _)
    · -- the slave of `q` answers the flushes of `q` when it is through with `q`
      left
      exact .inr ⟨i, (hp'.slave i q).2 (by simp [hi, Slave.job]), by simp [hi, Slave.late]⟩

theorem order_step (hd : Drift s op s') (ht : s.mem.target fq = some q)
    (hq : s.mem.oldtag q = none) :
    ¬ [fq, q].Sublist s'.mem.sent := by
  intro hsub
  rcases hd.sent with hsent | ⟨n, hsent, hn⟩
  · exact h.order fq q ht hq (hsent ▸ hsub)
  · rw [hsent] at hsub
    have hloc : ¬ Past s.slave loc n := by
      rintro (hg | ⟨i', hi', hl⟩)
      all_goals rcases hn with ⟨fs, hr⟩ | ⟨i, fs, hi⟩ | ⟨i, x, fs, hi⟩
      · simp [(h.placed.reader fs n).2 (by simp [hr, Reader.own])] at hg
      · simp [(h.placed.slave i n).2 (by simp [hi, Slave.job])] at hg
      · simp [(h.placed.answer i n).2 (by simp [hi, Slave.answers])] at hg
      · simp [(h.placed.reader fs n).2 (by simp [hr, Reader.own])] at hi'
      · rw [(h.placed.slave i n).2 (by simp [hi, Slave.job])] at hi'
        cases hi'
        simp [hi, Slave.late] at hl
      · simp [(h.placed.answer i n).2 (by simp [hi, Slave.answers])] at hi'
    obtain ⟨l₁, l₂, heq, hl₁, hl₂⟩ := sublist_append_iff.1 hsub
    rcases sublist_singleton.1 hl₂ with rfl | rfl
    · rw [append_nil] at heq
      exact h.order fq q ht hq (heq ▸ hl₁)
    -- the flush has been answered before, and the request is answered now
    have hl : l₁ = [fq] ∧ q = n := by
      have hlast := congrArg reverse heq
      simp only [reverse_append, reverse_cons, reverse_nil, nil_append, cons_append,
        cons.injEq] at hlast
      refine ⟨?_, hlast.1⟩
      rw [← reverse_reverse l₁, ← hlast.2]
      rfl
    rw [hl.1] at hl₁
    exact hloc (hl.2 ▸ h.past_of_sent (hl₁.subset (mem_singleton.2 rfl)) ht hq)

theorem step (hG : Distinct s op) (hs : step s op = some s') : ∃ loc', Tracked s' loc' := by
  obtain ⟨loc', hp', hpast, hgoes⟩ := h.placed.step h.locks hs
  have hd := step_drift h.locks hs
  have hl' : LockInv False s' := h.locks.step (fun hf => hf.elim) hs
  have hline := h.line.step h.locks h.placed hs
  have hkinds := h.kinds.step h.placed hs
  have hfin : ∀ n < s.mem.fresh, s'.mem.finished n = true → Past s'.slave loc' n := fun n hn hf => by
    rcases hd.finished n hf with hf | ⟨i, -, hi, hlate⟩
    · exact hpast n hn (h.finished n hn hf)
    · exact .inr ⟨i, (hp'.slave i n).2 hi, hlate⟩
  rcases step_keeps hs with hk | ⟨fs, tag, oldtag, hm, hop, hr⟩
  · refine ⟨loc', hl', hp', hline, h.tagged.keeps hk, hkinds, hk.fresh ▸ hfin, fun fq q ht hq => ?_,
      fun fq q ht hq => ?_⟩
    all_goals
      rw [hk.target] at ht
      rw [hk.oldtag] at hq
    · exact h.track_step hs hd hp' hpast hgoes (h.tagged.target fq q ht).1 ht hq
    · exact h.order_step hd ht hq
  have hsent := fun n hn => (h.placed.sent n hn).1
  have htagged : Tagged s'.mem := hm ▸ h.tagged.recv hsent (by rcases hop with rfl | rfl <;> exact hG)
  -- the target of a flush that was there before is the same
  have hold : ∀ fq q, s'.mem.target fq = some q → s'.mem.oldtag q = none → fq ≠ s.mem.fresh →
      fq < s.mem.fresh ∧ s.mem.target fq = some q ∧ s.mem.oldtag q = none := fun fq q ht hq hne => by
    obtain ⟨hlt, hlt', -⟩ := htagged.target fq q ht
    rw [hm] at ht hq hlt
    have hfq : fq < s.mem.fresh := Nat.lt_of_le_of_ne (Nat.le_of_lt_succ hlt) hne
    have hne' := ne_of_lt (lt_trans hlt' hfq)
    simp only [Mem.recv, update_of_ne hne, update_of_ne hne'] at ht hq
    exact ⟨hfq, ht, hq⟩
  refine ⟨loc', hl', hp', hline, htagged, hkinds, fun n hn hf => ?_, fun fq q ht hq => ?_, fun fq q ht hq => ?_⟩
  · rw [hm] at hn
    rcases Nat.lt_or_eq_of_le (Nat.le_of_lt_succ hn) with hn | rfl
    · exact hfin n hn hf
    · simp [hm, Mem.recv] at hf
  · by_cases hne : fq = s.mem.fresh
    · subst hne
      have hsome : oldtag ≠ none := by
        rintro rfl
        simp [hm, Mem.recv] at ht
      rw [(hp'.reader fs _).2 (by rw [hr hsome]; rfl), Chases, hr hsome]
      exact .inr trivial
    · obtain ⟨hfq, ht, hq⟩ := hold fq q ht hq hne
      exact h.track_step hs hd hp' hpast hgoes hfq ht hq
  · by_cases hne : fq = s.mem.fresh
    · subst hne
      intro hsub
      rw [hm] at hsub
      exact absurd (hsent _ (hsub.subset (mem_cons_self ..))) (lt_irrefl _)
    · obtain ⟨hfq, ht, hq⟩ := hold fq q ht hq hne
      exact h.order_step hd ht hq

end

end Tracked

/-- Each request gets at most one reply, and none after the reply to a flush of it. -/
structure FlushSafe (m : Mem) : Prop where
  once : m.sent.Nodup
  order : ∀ fq q, m.target fq = some q → m.oldtag q = none → ¬ [fq, q].Sublist m.sent

/-- Runs in which a request is linked behind an unlinked `exq.tail` are left out: that writes to memory that may be
another request by then. -/
theorem flushSafe_of_distinct (ops : List Op) (h : Along step (fun s op => Distinct s op ∧ TailQueued s op) init ops) :
    Always step (fun s => FlushSafe s.mem) init ops := by
  have hI : Always step (fun s => ∃ loc, Tracked s loc) init ops :=
    h.always (fun _ _ _ ⟨_, hI⟩ hG hs => hI.step hG.1 hs) ⟨_, tracked_init⟩
  exact hI.mono fun _ ⟨_, hI⟩ => ⟨hI.placed.sent_nodup, hI.order⟩

theorem flushSafe_answered :
    Along step (fun s op => Distinct s op ∧ TailQueued s op) init (served ++ flushed ++ answered) ∧
      Always step (fun s => FlushSafe s.mem) init (served ++ flushed ++ answered) := by
  have h : Along step (fun s op => Distinct s op ∧ TailQueued s op) init (served ++ flushed ++ answered) := by
    refine .cons ⟨trivial, trivial⟩ rfl (.cons ⟨trivial, trivial⟩ rfl (.cons ⟨by decide, trivial⟩ rfl ?_))
    refine .cons ⟨trivial, trivial⟩ rfl (.cons ⟨trivial, .inl rfl⟩ rfl ?_)
    iterate 6 refine .cons ⟨trivial, trivial⟩ rfl ?_
    refine .cons ⟨by decide, trivial⟩ rfl ?_
    iterate 11 refine .cons ⟨trivial, trivial⟩ rfl ?_
    trivial
  exact ⟨h, flushSafe_of_distinct _ h⟩

/-- The reply to a flush of a flush does not wait for the flush. -/
theorem flush_of_flush_answered : ¬ ∀ ops, Along step Distinct init ops → Always step (fun s => s.mem.sent.Nodup ∧
    ∀ fq q, s.mem.target fq = some q → ¬ [fq, q].Sublist s.mem.sent) init ops := by
  intro hall
  let ops : List Op :=
    served ++ flushed ++ [.recv 0 3 (some 2), .reader 0, .reader 0, .reader 0, .reader 0, .reader 0] ++ answered
  have h : Along step Distinct init ops := by
    refine .cons trivial rfl (.cons trivial rfl (.cons (by decide) rfl ?_))
    iterate 8 refine .cons trivial rfl ?_
    refine .cons (by decide) rfl ?_
    iterate 6 refine .cons trivial rfl ?_
    refine .cons (by decide) rfl ?_
    iterate 10 refine .cons trivial rfl ?_
    trivial
  have hrun : ((run step init ops).map fun s => (s.mem.sent, s.mem.target 2)) = some ([2, 1], some 1) := rfl
  obtain ⟨s, hs, heq⟩ := map_eq_some_iff.1 hrun
  obtain ⟨hsent, ht⟩ := Prod.mk.inj heq
  exact ((hall ops h).last hs).2 2 1 ht (hsent ▸ List.Sublist.refl _)

end Node9.ExSlave
