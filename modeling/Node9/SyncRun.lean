import Node9.SyncSteps

/-!
# Queue locks and read/write locks

Over all runs: a `QLock` has one holder at most and goes to those who wait for it in the order in which they
came; a writer is alone inside an `RWlock`; `readers` is the number of readers, and `k` is locked when
somebody is inside.
-/

namespace Node9.Sync
open Tally List

variable {τ : Type} [DecidableEq τ] [Fintype τ] {s s' : State τ} {p u w : τ} {Q : QId → List τ} {q : QId} {l : Nat}

structure Inv (s : State τ) : Prop where
  waits : ∃ Q, Waits Q s
  spins : Spins s
  tokens : Tokens s

theorem Inv.step {a : Act τ} (h : Inv s) (hs : step s a = some s') : Inv s' := by
  obtain ⟨Q, hw⟩ := h.waits
  exact ⟨step_waits hw hs, step_spins h.spins hs, step_tokens h.tokens hw h.spins hs⟩

theorem start_inv : Inv (start τ) := by
  have hzero : ∀ f : Proc τ → Nat, f ⟨.idle, [], 0⟩ = 0 → tally f (start τ).proc = 0 := fun f hf =>
    eq_zero_iff.2 fun _ => hf
  refine ⟨⟨_, start_waits⟩, ⟨fun t k hk => ?_, fun _ k t hk => ?_⟩, ⟨fun q => ?_, fun l => ?_, fun p l hl => ?_⟩⟩
  · cases hk
  · cases hk
  · rw [hzero (tok q) rfl, zero_add]
    cases q with
    | q i => rfl
    | x l => rfl
    | k l =>
      refine if_neg ?_
      rw [hzero (cov l) rfl]
      exact lt_irrefl 0
  · rw [hzero (rds l) rfl]
    rfl
  · rfl

theorem inv_always (acts : List (Act τ)) : Steps.Always step Inv (start τ) acts :=
  Steps.always_of_step (fun _ _ _ h hs => h.step hs) start_inv

/-- The queue locks that the process has taken and not given back. -/
def Pc.locks : Pc τ → List QId
  | un c (.popped _) | un c (.ready _) => c.base
  | pc => pc.owns 0

/-- `qunlock` has passed `q` to the waiter `w`. -/
def Passed (s : State τ) (q : QId) (w : τ) : Prop :=
  (s.proc w).pc.target = some (.q q) ∧ (0 < (s.proc w).sem ∨ ∃ u, (s.proc u).pc.wakes = some (w, .q q))

def Holder (s : State τ) (q : QId) (p : τ) : Prop :=
  q ∈ (s.proc p).pc.locks ++ (s.proc p).has.flatMap Hold.owns ∨ Passed s q p

omit [DecidableEq τ] [Fintype τ] in
theorem wakes_q {pc : Pc τ} (h : pc.wakes = some (w, .q q)) :
    pc.target = none ∧ ∀ n, pc.owns n = pc.locks ++ [q] := by
  unfold Pc.wakes at h
  split at h
  · cases h
    exact ⟨rfl, fun _ => rfl⟩
  · cases h
    exact ⟨rfl, fun _ => rfl⟩
  · cases h
  · cases h
  · cases h

omit [DecidableEq τ] [Fintype τ] in
theorem target_q {pc : Pc τ} (h : pc.target = some (.q q)) : ∀ n, pc.owns n = pc.locks ++ List.replicate n q := by
  unfold Pc.target at h
  split at h
  all_goals cases h
  all_goals
    intro n
    simp [Pc.owns, Pc.locks]

omit [DecidableEq τ] [Fintype τ] in
theorem count_locks_le (pc : Pc τ) (q : QId) (n : Nat) : pc.locks.count q ≤ (pc.owns n).count q := by
  cases pc with
  | lk c a => cases a <;> simp [Pc.locks, Pc.owns]
  | un c a => cases a <;> simp [Pc.locks, Pc.owns]
  | _ => exact le_refl _

omit [DecidableEq τ] [Fintype τ] in
theorem owns_cases {pc : Pc τ} {n : Nat} (h : q ∈ pc.owns n) :
    q ∈ pc.locks ∨ (pc.target = some (.q q) ∧ 0 < n) ∨ ∃ w, pc.wakes = some (w, .q q) := by
  cases pc with
  | lk c a =>
    cases a with
    | queued | block =>
      rcases mem_append.1 h with h | h
      · exact .inl (by simp [Pc.locks, Pc.owns, h])
      · obtain ⟨hn, rfl⟩ := mem_replicate.1 h
        exact .inr (.inl ⟨rfl, Nat.pos_of_ne_zero hn⟩)
    | lock | test | got => exact .inl h
  | un c a =>
    cases a with
    | popped w | ready w =>
      rcases mem_append.1 h with h | h
      · exact .inl h
      · rw [mem_singleton.1 h]
        exact .inr (.inr ⟨w, rfl⟩)
    | lock | pop | freed => exact .inl h
  | _ => exact .inl h

omit [DecidableEq τ] [Fintype τ] in
theorem tok_of_has (h : q ∈ (s.proc p).pc.locks ++ (s.proc p).has.flatMap Hold.owns) : 0 < tok q (s.proc p) := by
  have hpos := count_pos_iff.2 h
  have hle := count_locks_le (s.proc p).pc q (s.proc p).sem
  unfold tok
  rw [count_append] at hpos ⊢
  omega

omit [DecidableEq τ] [Fintype τ] in
theorem tok_of_sem (h : (s.proc p).pc.target = some (.q q)) (hs : 0 < (s.proc p).sem) : 0 < tok q (s.proc p) := by
  unfold tok
  rw [target_q h, count_append, count_append, count_replicate_self]
  omega

omit [DecidableEq τ] [Fintype τ] in
theorem tok_of_wakes (h : (s.proc p).pc.wakes = some (w, .q q)) :
    tok q (s.proc p) = ((s.proc p).pc.locks ++ (s.proc p).has.flatMap Hold.owns).count q + 1 := by
  unfold tok
  rw [(wakes_q h).2, count_append, count_append, count_append, count_singleton_self]
  omega

namespace Tokens

omit [DecidableEq τ] in
theorem wakes_alone (h : Tokens s) (hu : (s.proc u).pc.wakes = some (w, .q q)) (hp : Holder s q p) : p = w := by
  have hpos : 0 < tok q (s.proc u) := by
    rw [tok_of_wakes hu]
    omega
  rcases hp with hp | ⟨ht, hs | ⟨v, hv⟩⟩
  · -- it would be there twice
    obtain rfl := h.unique hpos (tok_of_has hp)
    have := h.tally_le q
    have := le_tally (tok q) s.proc u
    have := count_pos_iff.2 hp
    rw [tok_of_wakes hu] at *
    omega
  · obtain rfl := h.unique hpos (tok_of_sem ht hs)
    rw [(wakes_q hu).1] at ht
    cases ht
  · have hpos' : 0 < tok q (s.proc v) := by
      rw [tok_of_wakes hv]
      omega
    obtain rfl := h.unique hpos hpos'
    cases hu.symm.trans hv
    rfl

omit [DecidableEq τ] in
theorem holder_unique (h : Tokens s) (hp : Holder s q p) (hu : Holder s q u) : p = u := by
  have hor : ∀ w, Holder s q w → 0 < tok q (s.proc w) ∨ ∃ v, (s.proc v).pc.wakes = some (w, .q q) := by
    rintro w (hw | ⟨ht, hs | hv⟩)
    · exact .inl (tok_of_has hw)
    · exact .inl (tok_of_sem ht hs)
    · exact .inr hv
  rcases hor p hp with hpp | ⟨v, hv⟩
  · rcases hor u hu with huu | ⟨v, hv⟩
    · exact h.unique hpp huu
    · exact h.wakes_alone hv hp
  · exact (h.wakes_alone hv hu).symm

theorem holder_of_tok (hw : Waits Q s) (hp : 0 < tok q (s.proc p)) : ∃ w, Holder s q w := by
  rcases mem_append.1 (count_pos_iff.1 hp) with hq | hq
  · rcases owns_cases hq with hl | ⟨ht, hs⟩ | ⟨w, hwk⟩
    · exact ⟨p, .inl (mem_append_left _ hl)⟩
    · exact ⟨p, .inr ⟨ht, .inl hs⟩⟩
    · exact ⟨w, .inr ⟨hw.handoff.same p w _ hwk, .inr ⟨p, hwk⟩⟩⟩
  · exact ⟨p, .inl (mem_append_right _ hq)⟩

omit [DecidableEq τ] in
theorem tally_of_holder (hp : Holder s q p) : 0 < tally (tok q) s.proc := by
  rcases hp with hp | ⟨ht, hs | ⟨v, hv⟩⟩
  · exact pos_iff.2 ⟨p, tok_of_has hp⟩
  · exact pos_iff.2 ⟨p, tok_of_sem ht hs⟩
  · exact pos_iff.2 ⟨v, by rw [tok_of_wakes hv]; omega⟩

theorem locked_iff (h : Tokens s) (hw : Waits Q s) (q : QId) :
    (s.qlock q).locked = true ↔ (∃ p, Holder s q p) ∨ 0 < group s q := by
  have hl := h.locked q
  constructor
  · intro hlocked
    rw [hlocked, Bool.toNat_true] at hl
    by_cases hg : 0 < group s q
    · exact .inr hg
    · have hpos : 0 < tally (tok q) s.proc := by omega
      obtain ⟨p, hp⟩ := pos_iff.1 hpos
      exact .inl (holder_of_tok hw hp)
  intro hex
  have hpos : 0 < tally (tok q) s.proc + group s q := by
    rcases hex with ⟨p, hp⟩ | hg
    · exact Nat.add_pos_left (tally_of_holder hp) _
    · exact Nat.add_pos_right _ hg
  cases hb : (s.qlock q).locked with
  | true => rfl
  | false =>
    rw [hb, Bool.toNat_false] at hl
    omega

omit [DecidableEq τ] in
theorem group_pos : 0 < group s (.k l) ↔ ∃ p, 0 < cov l (s.proc p) := by
  dsimp only [group]
  split
  case isTrue hpos => exact ⟨fun _ => pos_iff.1 hpos, fun _ => Nat.one_pos⟩
  case isFalse hnot => exact ⟨fun h => absurd h (lt_irrefl 0), fun h => absurd (pos_iff.2 h) hnot⟩

omit [DecidableEq τ] [Fintype τ] in
/-- A reader that is counted and for whom `k` is not locked is just before its `canqlock(&l->k)`. -/
theorem entering {P : Proc τ} (hr : 0 < rds l P) (hc : cov l P = 0) : ∃ a, P.pc = .can (.rlockK l) a := by
  unfold rds at hr
  unfold cov at hc
  rw [count_append] at hr hc
  have hmem : l ∈ P.pc.reads := count_pos_iff.1 (by omega)
  have hnot : l ∉ P.pc.covers := count_eq_zero.1 (by omega)
  cases hpc : P.pc with
  | can c a =>
    rw [hpc] at hmem
    cases c with
    | rlockK l' =>
      obtain rfl := mem_singleton.1 hmem
      exact ⟨a, rfl⟩
    | user i => cases hmem
    | canrlock l' => cases hmem
  | un c a =>
    rw [hpc] at hmem hnot
    cases c with
    | rlockX l' => exact absurd hmem hnot
    | _ => cases hmem
  | rw l' a =>
    rw [hpc] at hmem hnot
    exact absurd hmem hnot
  | _ =>
    rw [hpc] at hmem
    cases hmem

theorem writer_alone (h : Tokens s) (hw : Waits Q s) (hsp : Spins s) (hp : Holder s (.k l) p) :
    rds l (s.proc u) = 0 ∧ cov l (s.proc u) = 0 := by
  have hpos := tally_of_holder hp
  have hcov : cov l (s.proc u) = 0 := by
    by_contra hne
    have hgroup : 0 < group s (.k l) := group_pos.2 ⟨u, Nat.pos_of_ne_zero hne⟩
    have := h.locked (.k l)
    have := Bool.toNat_le (s.qlock (.k l)).locked
    omega
  refine ⟨?_, hcov⟩
  by_contra hne
  obtain ⟨a, hpc⟩ := entering (Nat.pos_of_ne_zero hne) hcov
  have := h.no_writer hw hsp hpc
  omega

end Tokens

/-! ### What holds in every state -/

structure QLockSafe (s : State τ) (q : QId) : Prop where
  one : ∀ p u, Holder s q p → Holder s q u → p = u
  locked : ∀ p, Holder s q p → (s.qlock q).locked = true
  order : ∃ rest, s.came q = s.gone q ++ rest ∧
    ∀ w, w ∈ rest ↔ (s.proc w).pc.target = some (.q q) ∧ ¬ Passed s q w

/-- A writer is inside: it holds `k`. A reader is inside from its `readers++` to its `--readers` (`rds`), and `k`
is locked for it from its `canqlock` to the `--readers` or to the release of `k` (`cov`); the difference is
under the spin lock. -/
structure RWlockSafe (s : State τ) (l : Nat) : Prop where
  apart : ∀ p u, Holder s (.k l) p → rds l (s.proc u) = 0 ∧ cov l (s.proc u) = 0
  writers : ∀ p u, Holder s (.k l) p → Holder s (.k l) u → p = u
  readers : s.readers l = ∑ p, (rds l (s.proc p) : Int)
  inside : (∀ p, rds l (s.proc p) ≤ 1) → s.readers l = (Finset.univ.filter fun p => 0 < rds l (s.proc p)).card
  k : (s.qlock (.k l)).locked = true ↔ (∃ p, Holder s (.k l) p) ∨ ∃ p, 0 < cov l (s.proc p)
  settled : ∀ p, s.spin (.l l) ≠ some p → cov l (s.proc p) = rds l (s.proc p)

theorem Inv.qlockSafe (h : Inv s) (q : QId) : QLockSafe s q := by
  obtain ⟨Q, hw⟩ := h.waits
  refine ⟨fun p u => h.tokens.holder_unique, fun p hp => (h.tokens.locked_iff hw q).2 (.inl ⟨p, hp⟩),
    Q q, hw.queues.order q, fun w => ?_⟩
  refine (hw.handoff.mem_iff (t := .q q)).trans (and_congr_right fun ht => ?_)
  constructor
  · rintro ⟨hs, hno⟩ ⟨-, hpos | ⟨u, hu⟩⟩
    · exact absurd hs (Nat.pos_iff_ne_zero.1 hpos)
    · exact hno u _ hu
  intro hnot
  refine ⟨?_, fun u t hu => ?_⟩
  · by_contra hne
    exact hnot ⟨ht, .inl (Nat.pos_of_ne_zero hne)⟩
  · have htt := hw.handoff.same u w t hu
    obtain rfl : t = .q q := Option.some.inj (htt.symm.trans ht)
    exact hnot ⟨ht, .inr ⟨u, hu⟩⟩

theorem Inv.rwlockSafe (h : Inv s) (l : Nat) : RWlockSafe s l := by
  obtain ⟨Q, hw⟩ := h.waits
  have hreaders : s.readers l = ∑ p, (rds l (s.proc p) : Int) := by
    rw [h.tokens.readers l, tally, Nat.cast_sum]
  refine ⟨fun p u => h.tokens.writer_alone hw h.spins, fun p u => h.tokens.holder_unique, hreaders, fun hone => ?_, ?_,
    fun p hp => ?_⟩
  · rw [h.tokens.readers l, tally, Finset.card_filter]
    congr 1
    refine Finset.sum_congr rfl fun p _ => ?_
    have := hone p
    split <;> omega
  · rw [h.tokens.locked_iff hw, Tokens.group_pos]
  · exact cov_eq_rds (p := p) fun hmem => hp (h.spins.holds p (.l l) hmem)

theorem locks_always (acts : List (Act τ)) :
    Steps.Always step (fun s => (∀ q, QLockSafe s q) ∧ ∀ l, RWlockSafe s l) (start τ) acts :=
  (inv_always acts).mono fun _ h => ⟨h.qlockSafe, h.rwlockSafe⟩

end Node9.Sync
