import Node9.SyncLock

/-! # Every step keeps the locks -/

namespace Node9.Sync
open Tally Function List Option

variable {τ : Type} [DecidableEq τ] [Fintype τ] {s s' : State τ} {p : τ} {Q : QId → List τ} {l : Nat}

/-! ### What the spin locks are needed for -/

/-- Before a reader's `canqlock(&l->k)`, `k` is not with a writer, nor on its way to one. -/
theorem Tokens.no_writer {a : Can} (h : Tokens s) (hw : Waits Q s) (hsp : Spins s)
    (hpc : (s.proc p).pc = .can (.rlockK l) a) : tally (tok (.k l)) s.proc = 0 := by
  have hlt := tok_k_lt hpc
  have hone := h.tally_le (.x l)
  refine eq_zero_iff.2 fun u => ?_
  by_cases hu : p = u
  · subst hu
    have := le_tally (tok (.x l)) s.proc p
    omega
  have hheld : .l l ∉ (s.proc u).pc.held u := by
    intro hmem
    refine hu (hsp.unique ?_ hmem)
    rw [hpc]
    cases a <;> simp [Pc.held, CanFrom.held]
  have hle := tok_k_le (hw.sem_le u) hheld
  have := add_le_tally (tok (.x l)) s.proc hu
  omega

theorem Tokens.canlock (h : Tokens s) (hsp : Spins s) (hpc : (s.proc p).pc = .can (.rlockK l) .lock) :
    s.lock p (.use (.k l)) ≠ none := by
  intro hnone
  have hheld : (s.proc p).pc.held p = [.l l] := by rw [hpc]; rfl
  cases hu : s.spin (.use (.k l)) with
  | none => simp [State.lock, hu] at hnone
  | some u =>
    have hmem : .use (.k l) ∈ (s.proc u).pc.held u := hsp.only trivial (.use (.k l)) u hu
    have hup : u = p := by
      rcases tok_of_use hmem with hx | hl
      · refine h.unique hx ?_
        have := tok_k_lt hpc
        omega
      · exact hsp.unique hl (by rw [hheld]; exact mem_singleton_self _)
    rw [hup, hheld] at hmem
    simp at hmem

theorem Tokens.alone (h : Tokens s) (hsp : Spins s) {P' : Proc τ} {a : Un τ} (hpc : (s.proc p).pc = .un (.runlock l) a)
    (hlast : (s.proc p).pc.last = some l) (hP : cov l P' = rds l (s.proc p)) :
    tally (cov l) (update s.proc p P') = 0 := by
  have hzero : tally (rds l) s.proc = 0 := by
    have := h.readers l
    have := h.last p l hlast
    omega
  have hall := eq_zero_iff.1 hzero
  refine eq_zero_iff.2 fun u => ?_
  by_cases hu : u = p
  · subst hu
    rw [update_self, hP]
    exact hall u
  rw [update_of_ne hu, cov_eq_rds (p := u)]
  · exact hall u
  · intro hmem
    refine hu (hsp.unique hmem ?_)
    rw [hpc]
    cases a <;> simp [Pc.held, UnFrom.held]

theorem lock_tokens {l : Spin τ} {pc pc' : Pc τ} (h : Tokens s) (hl : s.lock p l = some s') (hpc : (s.proc p).pc = pc)
    (howns : ∀ n, pc'.owns n = pc.owns n) (hrds : pc'.reads = pc.reads) (hcov : pc'.covers = pc.covers)
    (hlast : pc'.last = pc.last) : Tokens (s'.goto p pc') := by
  obtain ⟨-, rfl⟩ := lock_some hl
  exact h.goto hpc rfl (fun _ => rfl) rfl howns hrds hcov hlast

theorem pass_tokens {v : Pc τ × List Hold} {pc : Pc τ} (h : Tokens s) (hw : Waits Q s) (hpc : (s.proc p).pc = pc)
    (hs : s.osblock p = some s') (howns : v.1.owns 0 ++ v.2.flatMap Hold.owns = pc.owns 1)
    (hrds : v.1.reads ++ v.2.flatMap Hold.reads = pc.reads) (hcov : v.1.covers ++ v.2.flatMap Hold.reads = pc.covers)
    (hlast : v.1.last = pc.last) : Tokens (s'.ret p v) := by
  obtain ⟨hsem, rfl⟩ := osblock_some hs
  have hone : (s.proc p).sem = 1 := by
    have := hw.sem_le p
    omega
  have halike : Alike (s.proc p) ⟨v.1, v.2 ++ (s.proc p).has, 0⟩ := by
    subst hpc
    exact alike_of v.2 (.refl _) (.of_eq (by rw [hone]; exact howns)) (.of_eq hrds) (.of_eq hcov) hlast
  refine h.move halike ?_ (fun _ => rfl) rfl
  simp [State.ret, State.setp, hone]

omit [DecidableEq τ] [Fintype τ] in
theorem setq_locked {v : Bool} (q q' : QId) : ((s.setq q { s.qlock q with locked := v }).qlock q').locked =
    if q' = q then v else (s.qlock q').locked := by
  by_cases hq : q' = q
  · subst hq
    simp [State.setq]
  · simp [State.setq, hq]

section
variable (h : Tokens s)
include h

theorem qlock_tokens {c : LkFrom} {a : Lk} (hw : Waits Q s) (hpc : (s.proc p).pc = .lk c a)
    (hs : qlock s p c a = some s') : Tokens s' := by
  cases a with
  | lock =>
    obtain ⟨s₁, hl, rfl⟩ := map_eq_some_iff.1 hs
    exact lock_tokens h hl hpc (fun _ => rfl) rfl rfl rfl
  | test =>
    dsimp only [qlock] at hs
    split at hs
    case isTrue hl =>
      cases hs
      refine h.take (q := c.lock) (by simpa using hl) (fun q => ?_) (fun l => ?_) (fun l => ?_) ?_ rfl
        (fun q => setq_locked _ q) rfl
      · simp only [tok, hpc, Pc.owns, append_nil, count_append, count_singleton, beq_iff_eq,
          eq_comm (a := q)]
        omega
      · simp [cov, hpc, Pc.covers]
      · simp [rds, hpc, Pc.reads]
      · rw [hpc]; rfl
    case isFalse hl =>
      cases hs
      have hzero : (s.proc p).sem = 0 := hw.sem_zero (by rw [hpc]; rfl)
      have halike : Alike (s.proc p) { s.proc p with pc := .lk c .queued } := by
        refine alike_of [] (.refl _) (.of_eq ?_)
          (.of_eq (by rw [hpc]; rfl)) (.of_eq (by rw [hpc]; rfl)) (by rw [hpc]; rfl)
        rw [hpc]
        dsimp only
        rw [hzero]
        exact append_nil _
      refine h.move halike rfl (fun q => ?_) rfl
      by_cases hq : q = c.lock
      · subst hq
        simp [State.goto, State.setp, enqueue]
      · simp [State.goto, State.setp, enqueue, hq]
  | got =>
    cases hs
    refine h.ret hpc rfl (fun _ => rfl) rfl (fun _ => ?_) ?_ ?_ ?_
    all_goals cases c <;> rfl
  | queued =>
    cases hs
    exact h.goto hpc rfl (fun _ => rfl) rfl (fun _ => rfl) rfl rfl rfl
  | block =>
    obtain ⟨s₁, hb, rfl⟩ := map_eq_some_iff.1 hs
    refine pass_tokens h hw hpc hb ?_ ?_ ?_ ?_
    all_goals cases c <;> rfl

theorem Tokens.enter {pc : Pc τ} {a : Can} (hw : Waits Q s) (hsp : Spins s)
    (hpc : (s.proc p).pc = .can (.rlockK l) a) (hsame : s'.proc = s.proc)
    (hl : ∀ q, (s'.qlock q).locked = if q = .k l then true else (s.qlock q).locked) (hreaders : s'.readers = s.readers)
    (howns : pc.owns (s.proc p).sem = [.x l]) (hrds : pc.reads = [l]) (hcov : pc.covers = [l])
    (hold : (Pc.can (.rlockK l) a : Pc τ).owns (s.proc p).sem = [.x l] ∧ (Pc.can (.rlockK l) a : Pc τ).covers = [])
    (hlast : pc.last = none) : Tokens (s'.goto p pc) := by
  have hupd : (s'.goto p pc).proc = update s.proc p { s.proc p with pc := pc } := by
    rw [← hsame]
    rfl
  have hzero := h.no_writer hw hsp hpc
  have htok : ∀ q, tok q { s.proc p with pc := pc } = tok q (s.proc p) := by
    intro q
    simp only [tok, howns, hpc, hold.1]
  have hrd : ∀ l', rds l' { s.proc p with pc := pc } = rds l' (s.proc p) := by
    intro l'
    simp only [rds, hrds, hpc]
    rfl
  refine ⟨fun q => ?_, fun l' => ?_, fun u l' hu => ?_⟩
  · change _ = (s'.qlock q).locked.toNat
    rw [hl, hupd, tally_update_eq (htok q)]
    by_cases hq : q = .k l
    · subst hq
      have hpos : 0 < tally (cov l) (s'.goto p pc).proc := by
        refine pos_iff.2 ⟨p, ?_⟩
        rw [hupd, update_self]
        simp [cov, hcov]
      rw [hzero]
      simp [group, hpos]
    have hgroup : group (s'.goto p pc) q = group s q := by
      cases q with
      | q i => rfl
      | x l' => rfl
      | k l' =>
        have hne : l ≠ l' := fun heq => hq (by rw [heq])
        have heq : cov l' { s.proc p with pc := pc } = cov l' (s.proc p) := by
          simp [cov, hcov, hpc, hold.2, hne]
        dsimp only [group]
        rw [hupd, tally_update_eq heq]
    rw [hgroup, if_neg hq]
    exact h.locked q
  · change s'.readers l' = _
    rw [hreaders, hupd, tally_update_eq (hrd l')]
    exact h.readers l'
  · change s'.readers l' = 0
    rw [hreaders]
    rw [hupd] at hu
    by_cases hup : u = p
    · subst hup
      rw [update_self] at hu
      rw [hlast] at hu
      cases hu
    · rw [update_of_ne hup] at hu
      exact h.last u l' hu

theorem canqlock_tokens {c : CanFrom} {a : Can} (hw : Waits Q s) (hsp : Spins s)
    (hpc : (s.proc p).pc = .can c a) : Tokens (canqlock s p c a) := by
  cases a with
  | lock =>
    dsimp only [canqlock]
    cases hl : s.lock p (.use c.lock) with
    | some s₁ => exact lock_tokens h hl hpc (fun _ => rfl) rfl rfl rfl
    | none =>
      cases c with
      | rlockK l => exact absurd hl (h.canlock hsp hpc)
      | user i => exact h.ret hpc rfl (fun _ => rfl) rfl (fun _ => rfl) rfl rfl rfl
      | canrlock l => exact h.ret hpc rfl (fun _ => rfl) rfl (fun _ => rfl) rfl rfl rfl
  | test =>
    dsimp only [canqlock]
    split
    case isTrue hl =>
      cases c with
      | rlockK l =>
        refine h.enter hw hsp hpc rfl (fun q => ?_) rfl rfl rfl rfl ⟨rfl, rfl⟩ rfl
        split
        case isTrue hq => rw [hq]; exact hl
        case isFalse => rfl
      | user i => exact h.goto hpc rfl (fun _ => rfl) rfl (fun _ => rfl) rfl rfl rfl
      | canrlock l => exact h.goto hpc rfl (fun _ => rfl) rfl (fun _ => rfl) rfl rfl rfl
    case isFalse hl =>
      cases c with
      | rlockK l => exact h.enter hw hsp hpc rfl (fun q => setq_locked _ q) rfl rfl rfl rfl ⟨rfl, rfl⟩ rfl
      | user i | canrlock l =>
        refine h.take (by simpa using hl) (fun q => ?_) (fun l => ?_) (fun l => ?_) ?_ rfl (fun q => setq_locked _ q) rfl
        · simp only [tok, hpc, Pc.owns, CanFrom.base, CanFrom.takes, CanFrom.lock, nil_append, count_append,
            count_singleton, beq_iff_eq, eq_comm (a := q)]
          omega
        · simp [cov, hpc, Pc.covers, CanFrom.reads]
        · simp [rds, hpc, Pc.reads]
        · rw [hpc]; rfl
  | no =>
    refine h.ret hpc rfl (fun _ => rfl) rfl (fun _ => ?_) ?_ ?_ ?_
    all_goals cases c <;> rfl
  | got =>
    refine h.ret hpc rfl (fun _ => rfl) rfl (fun _ => ?_) ?_ ?_ ?_
    all_goals cases c <;> rfl

theorem Tokens.leave {pc : Pc τ} {v : Bool} (hsp : Spins s) (hpc : (s.proc p).pc = .un (.runlock l) .pop)
    (hsame : s'.proc = s.proc) (hl : ∀ q, (s'.qlock q).locked = if q = .k l then v else (s.qlock q).locked)
    (hreaders : s'.readers = s.readers) (howns : pc.owns (s.proc p).sem = if v then [.k l] else []) (hrds : pc.reads = [])
    (hcov : pc.covers = []) (hlast : pc.last = none) : Tokens (s'.goto p pc) := by
  have hupd : (s'.goto p pc).proc = update s.proc p { s.proc p with pc := pc } := by
    rw [← hsame]
    rfl
  have hrd : ∀ l', rds l' { s.proc p with pc := pc } = rds l' (s.proc p) := by
    intro l'
    simp only [rds, hrds, hpc]
    rfl
  have hone : tally (tok (.k l)) s.proc = 0 := by
    have hgroup : group s (.k l) = 1 := if_pos (pos_iff.2 ⟨p, by simp [cov, hpc, Pc.covers]⟩)
    have := h.locked (.k l)
    have := Bool.toNat_le (s.qlock (.k l)).locked
    omega
  have hempty : tally (cov l) (s'.goto p pc).proc = 0 := by
    rw [hupd]
    refine h.alone hsp hpc (by rw [hpc]; rfl) ?_
    simp only [cov, rds, hcov, hpc]
    rfl
  refine ⟨fun q => ?_, fun l' => ?_, fun u l' hu => ?_⟩
  · change _ = (s'.qlock q).locked.toNat
    rw [hl]
    have htally := tally_update (tok q) s.proc p { s.proc p with pc := pc }
    rw [← hupd] at htally
    have hbefore : tok q (s.proc p) = ((s.proc p).has.flatMap Hold.owns).count q := by
      simp [tok, hpc, Pc.owns, UnFrom.base, UnFrom.gives]
    have hafter : tok q { s.proc p with pc := pc } = (if v then [QId.k l] else []).count q +
        ((s.proc p).has.flatMap Hold.owns).count q := by
      simp only [tok, howns, count_append]
    rw [hbefore, hafter] at htally
    by_cases hq : q = .k l
    · subst hq
      have hgroup : group (s'.goto p pc) (.k l) = 0 := if_neg (by omega)
      rw [hgroup, if_pos rfl]
      cases v with
      | true =>
        simp only [↓reduceIte, count_singleton_self, Bool.toNat_true] at htally ⊢
        omega
      | false =>
        simp only [Bool.false_eq_true, ↓reduceIte, count_nil, Bool.toNat_false] at htally ⊢
        omega
    have hgroup : group (s'.goto p pc) q = group s q := by
      cases q with
      | q i => rfl
      | x l' => rfl
      | k l' =>
        have hne : l ≠ l' := fun heq => hq (by rw [heq])
        have heq : cov l' { s.proc p with pc := pc } = cov l' (s.proc p) := by
          simp only [cov, hcov, hpc]
          simp [Pc.covers, hne]
        dsimp only [group]
        rw [hupd, tally_update_eq heq]
    have hnone : (if v then [QId.k l] else []).count q = 0 := by
      refine count_eq_zero.2 ?_
      cases v <;> simp [hq]
    rw [hgroup, if_neg hq]
    have := h.locked q
    omega
  · change s'.readers l' = _
    rw [hreaders, hupd, tally_update_eq (hrd l')]
    exact h.readers l'
  · change s'.readers l' = 0
    rw [hreaders]
    rw [hupd] at hu
    by_cases hup : u = p
    · subst hup
      rw [update_self, hlast] at hu
      cases hu
    · rw [update_of_ne hup] at hu
      exact h.last u l' hu

theorem ready_tokens {w : τ} {t : Target} {v : Pc τ × List Hold} {pc : Pc τ} (hw : Waits Q s)
    (hpc : (s.proc p).pc = pc) (hp : pc.target = none) (hwk : pc.wakes = some (w, t))
    (howns : ∀ n q, (v.1.owns n ++ v.2.flatMap Hold.owns).count q + (if t = .q q then 1 else 0) = (pc.owns n).count q)
    (hrds : v.1.reads ++ v.2.flatMap Hold.reads = pc.reads) (hcov : v.1.covers ++ v.2.flatMap Hold.reads = pc.covers)
    (hlast : v.1.last = pc.last) : Tokens ((s.osready w).ret p v) := by
  subst hpc
  have hwt : (s.proc w).pc.target = some t := hw.handoff.same p w t hwk
  have hne : p ≠ w := by
    rintro rfl
    rw [hp] at hwt
    cases hwt
  have hproc : ((s.osready w).ret p v).proc =
      update (update s.proc w { s.proc w with sem := (s.proc w).sem + 1 }) p
        { s.proc p with pc := v.1, has := v.2 ++ (s.proc p).has } := by
    simp [State.ret, State.osready, State.setp, update_of_ne hne]
  refine h.hand hne hproc (fun q => ?_) (fun _ => rfl) (fun l => ?_) (fun _ => rfl) (fun l => ?_) rfl hlast rfl rfl
  · have hsame : (v.1.owns (s.proc p).sem ++ (v.2 ++ (s.proc p).has).flatMap Hold.owns).count q =
        (v.1.owns (s.proc p).sem ++ v.2.flatMap Hold.owns).count q + ((s.proc p).has.flatMap Hold.owns).count q := by
      rw [flatMap_append, ← append_assoc, count_append]
    have hold : tok q (s.proc p) = ((s.proc p).pc.owns (s.proc p).sem).count q +
        ((s.proc p).has.flatMap Hold.owns).count q := count_append
    have hown := howns (s.proc p).sem q
    rw [tok_post, hwt, hold]
    simp only [Option.some.injEq]
    unfold tok
    rw [hsame]
    omega
  · simp only [cov, flatMap_append, ← append_assoc, hcov]
  · simp only [rds, flatMap_append, ← append_assoc, hrds]

theorem qunlock_tokens {c : UnFrom} {a : Un τ} (hw : Waits Q s) (hsp : Spins s)
    (hpc : (s.proc p).pc = .un c a) (hs : qunlock s p c a = some s') : Tokens s' := by
  cases a with
  | lock =>
    obtain ⟨s₁, hl, rfl⟩ := map_eq_some_iff.1 hs
    refine lock_tokens h hl hpc (fun _ => rfl) rfl ?_ ?_
    all_goals cases c <;> rfl
  | pop =>
    dsimp only [qunlock] at hs
    split at hs
    case h_1 w hhead =>
      have hdeq : ∀ q, ((dequeue s c.lock w).qlock q).locked = (s.qlock q).locked := by
        intro q
        by_cases hq : q = c.lock
        · subst hq
          simp [dequeue, State.setq]
        · simp [dequeue, State.setq, hq]
      cases hs
      cases c with
      | runlock l =>
        have hl : (s.qlock (.k l)).locked = true := by
          refine hw.queues.busy (.k l) fun hQ => ?_
          rw [hw.queues.head_eq, UnFrom.lock, hQ] at hhead
          cases hhead
        refine h.leave (v := true) hsp hpc rfl (fun q => ?_) rfl rfl rfl rfl rfl
        rw [hdeq]
        split
        case isTrue hq => rw [hq, hl]
        case isFalse => rfl
      | user i => exact h.goto hpc rfl hdeq rfl (fun _ => rfl) rfl rfl rfl
      | rlockX l => exact h.goto hpc rfl hdeq rfl (fun _ => rfl) rfl rfl rfl
      | wunlockK l => exact h.goto hpc rfl hdeq rfl (fun _ => rfl) rfl rfl rfl
      | wunlockX l => exact h.goto hpc rfl hdeq rfl (fun _ => rfl) rfl rfl rfl
    case h_2 =>
      cases hs
      cases c with
      | runlock l => exact h.leave (v := false) hsp hpc rfl (fun q => setq_locked _ q) rfl rfl rfl rfl rfl
      | user i | rlockX l | wunlockK l | wunlockX l =>
        refine h.give (fun q => ?_) (fun l => ?_) (fun l => ?_) ?_ rfl (fun q => setq_locked _ q) rfl
        · simp only [tok, hpc, Pc.owns, UnFrom.base, UnFrom.gives, UnFrom.lock, nil_append, append_nil,
            count_append, count_singleton, beq_iff_eq, eq_comm (a := q)]
          omega
        · simp [cov, hpc, Pc.covers]
        · simp [rds, hpc, Pc.reads]
        · rw [hpc]; rfl
  | popped w =>
    cases hs
    refine h.goto hpc rfl (fun _ => rfl) rfl (fun _ => rfl) rfl ?_ ?_
    all_goals cases c <;> rfl
  | ready w =>
    cases hs
    refine ready_tokens h hw hpc rfl rfl (fun n q => ?_) ?_ ?_ ?_
    · cases c <;>
        simp only [UnFrom.ret, Pc.owns, Hold.owns, UnFrom.base, UnFrom.gives, UnFrom.lock, flatMap_nil,
          flatMap_cons, append_nil, nil_append, count_append, count_singleton, count_nil,
          Target.q.injEq, beq_iff_eq] <;> omega
    all_goals cases c <;> rfl
  | freed =>
    cases hs
    refine h.ret hpc rfl (fun _ => rfl) rfl (fun _ => ?_) ?_ ?_ ?_
    all_goals cases c <;> rfl

end

omit [DecidableEq τ] [Fintype τ] in
theorem held_of_last {P : Proc τ} (h : P.pc.last = some l) : .l l ∈ P.pc.held p := by
  unfold Pc.last at h
  split at h
  · rename_i hpc
    cases h
    rw [hpc]
    exact mem_singleton_self _
  · rename_i hpc
    cases h
    rw [hpc]
    exact mem_cons_of_mem _ (mem_singleton_self _)
  · cases h

section
variable (h : Tokens s)
include h

theorem Tokens.recount {pc : Pc τ} {n : Int} (hsp : Spins s) (hheld : .l l ∈ (s.proc p).pc.held p)
    (howns : pc.owns (s.proc p).sem = (s.proc p).pc.owns (s.proc p).sem)
    (hrds : (pc.reads.count l : Int) + s.readers l = ((s.proc p).pc.reads.count l : Int) + n)
    (hrds' : ∀ l', l' ≠ l → pc.reads.count l' = (s.proc p).pc.reads.count l')
    (hgroup : ∀ q, group ((setReaders s l n).goto p pc) q = group s q)
    (hlast : ∀ l', pc.last = some l' → l' = l ∧ n = 0) : Tokens ((setReaders s l n).goto p pc) := by
  have hupd : ((setReaders s l n).goto p pc).proc = update s.proc p { s.proc p with pc := pc } := rfl
  have hreaders : ∀ l', ((setReaders s l n).goto p pc).readers l' = if l' = l then n else s.readers l' := fun l' =>
    update_apply _ _ _ _
  have hcount : ∀ l', (rds l' { s.proc p with pc := pc } : Int) - rds l' (s.proc p) =
      pc.reads.count l' - (s.proc p).pc.reads.count l' := by
    intro l'
    unfold rds
    rw [count_append, count_append]
    push_cast
    omega
  refine ⟨fun q => ?_, fun l' => ?_, fun u l' hu => ?_⟩
  · have htok : tok q { s.proc p with pc := pc } = tok q (s.proc p) := by simp only [tok, howns]
    rw [hgroup, hupd, tally_update_eq htok]
    exact h.locked q
  · have htally := tally_update (rds l') s.proc p { s.proc p with pc := pc }
    have hold := h.readers l'
    have hdiff := hcount l'
    rw [← hupd] at htally
    rw [hreaders]
    split
    case isTrue heq =>
      subst heq
      omega
    case isFalse hne =>
      have := hrds' l' hne
      omega
  · rw [hreaders]
    rw [hupd] at hu
    by_cases hup : u = p
    · subst hup
      rw [update_self] at hu
      obtain ⟨rfl, rfl⟩ := hlast l' hu
      exact if_pos rfl
    rw [update_of_ne hup] at hu
    have hne : l' ≠ l := by
      rintro rfl
      exact hup (hsp.unique (held_of_last hu) hheld)
    rw [if_neg hne]
    exact h.last u l' hu

theorem rw_tokens {a : Rw} (hsp : Spins s) (hpc : (s.proc p).pc = .rw l a) (hs : rw s p l a = some s') :
    Tokens s' := by
  cases a with
  | rlockL | runlockL =>
    obtain ⟨s₁, hl, rfl⟩ := map_eq_some_iff.1 hs
    exact lock_tokens h hl hpc (fun _ => rfl) rfl rfl rfl
  | rlockInc =>
    cases hs
    refine h.recount hsp (by rw [hpc]; exact mem_singleton_self _) (by rw [hpc]; rfl) ?_ (fun l' hne => ?_)
      (group_congr fun l' => ?_) (fun l' hl' => ?_)
    · simp [hpc, Pc.reads, CanFrom.reads]
      omega
    · simp [hpc, Pc.reads, CanFrom.reads, Ne.symm hne]
    · exact tally_update_eq (by simp [cov, hpc, Pc.covers, setReaders])
    · cases hl'
  | rlockUn | runlockUn =>
    cases hs
    exact h.goto hpc rfl (fun _ => rfl) rfl (fun _ => rfl) rfl rfl rfl
  | runlockDec =>
    cases hs
    have hheld : .l l ∈ (s.proc p).pc.held p := by
      rw [hpc]
      exact mem_singleton_self _
    by_cases hzero : s.readers l - 1 = 0
    · rw [if_pos hzero]
      refine h.recount hsp hheld (by rw [hpc]; rfl) ?_ (fun l' hne => ?_) (group_congr fun l' => ?_) (fun l' hl' => ?_)
      · simp [hpc, Pc.reads]
      · simp [hpc, Pc.reads, Ne.symm hne]
      · exact tally_update_eq (by simp [cov, hpc, Pc.covers, setReaders])
      · cases hl'
        exact ⟨rfl, hzero⟩
    rw [if_neg hzero]
    refine h.recount hsp hheld (by rw [hpc]; rfl) ?_ (fun l' hne => ?_) (fun q => ?_) (fun l' hl' => ?_)
    · simp [hpc, Pc.reads]
    · simp [hpc, Pc.reads, Ne.symm hne]
    · -- another reader is still inside
      have hupd : ((setReaders s l (s.readers l - 1)).goto p (.rw l .runlockUn)).proc =
          update s.proc p { s.proc p with pc := .rw l .runlockUn } := rfl
      have hcovp : ∀ l', cov l' (s.proc p) = (if l = l' then 1 else 0) +
          cov l' ({ s.proc p with pc := .rw l .runlockUn } : Proc τ) := by
        intro l'
        simp [cov, hpc, Pc.covers, List.count_cons, add_comm]
      cases q with
      | q i => rfl
      | x l' => rfl
      | k l' =>
        by_cases hne : l = l'
        · subst hne
          have hbefore : 0 < tally (cov l) s.proc := pos_iff.2 ⟨p, by rw [hcovp]; simp⟩
          have hrds : rds l (s.proc p) = 1 + cov l ({ s.proc p with pc := .rw l .runlockUn } : Proc τ) := by
            simp [rds, cov, hpc, Pc.reads, Pc.covers, add_comm]
          have hrest : 0 < tally (cov l) (update s.proc p { s.proc p with pc := .rw l .runlockUn }) := by
            have hold := h.readers l
            have htally := tally_update (rds l) s.proc p { s.proc p with pc := .rw l .runlockUn }
            have hafter : rds l ({ s.proc p with pc := .rw l .runlockUn } : Proc τ) =
                cov l { s.proc p with pc := .rw l .runlockUn } := rfl
            have hpos : 0 < tally (rds l) (update s.proc p { s.proc p with pc := .rw l .runlockUn }) := by
              omega
            obtain ⟨u, hu⟩ := pos_iff.1 hpos
            refine pos_iff.2 ⟨u, ?_⟩
            by_cases hup : u = p
            · subst hup
              rw [update_self] at hu ⊢
              exact hu
            · rw [update_of_ne hup] at hu ⊢
              rw [cov_eq_rds (p := u) fun hmem => hup (hsp.unique hmem hheld)]
              exact hu
          dsimp only [group]
          rw [hupd, if_pos hbefore, if_pos hrest]
        · have heq : cov l' ({ s.proc p with pc := .rw l .runlockUn } : Proc τ) = cov l' (s.proc p) := by
            rw [hcovp, if_neg hne, zero_add]
          dsimp only [group]
          rw [hupd, tally_update_eq heq]
    · cases hl'

theorem sleep_tokens {r : Nat} {f : Bool} {a : Sl} (hw : Waits Q s) (hpc : (s.proc p).pc = .sleep r a)
    (hs : sleep s p r f a = some s') : Tokens s' := by
  cases a with
  | lockP | lockR | relock =>
    obtain ⟨s₁, hl, rfl⟩ := map_eq_some_iff.1 hs
    exact lock_tokens h hl hpc (fun _ => rfl) rfl rfl rfl
  | test =>
    dsimp only [sleep] at hs
    split at hs
    · cases hs
      exact h.goto hpc rfl (fun _ => rfl) rfl (fun _ => rfl) rfl rfl rfl
    · split at hs
      all_goals
        cases hs
        exact h.goto hpc rfl (fun _ => rfl) rfl (fun _ => rfl) rfl rfl rfl
  | panic => cases hs
  | stay | recorded | note | unlockP | clear | raise | done =>
    cases hs
    exact h.goto hpc rfl (fun _ => rfl) rfl (fun _ => rfl) rfl rfl rfl
  | block =>
    obtain ⟨s₁, hb, rfl⟩ := map_eq_some_iff.1 hs
    exact pass_tokens (v := (.sleep r .relock, [])) h hw hpc hb rfl rfl rfl rfl
  | check =>
    dsimp only [sleep] at hs
    split at hs
    all_goals
      cases hs
      exact h.goto hpc rfl (fun _ => rfl) rfl (fun _ => rfl) rfl rfl rfl

theorem wakeup_tokens {r : Nat} {a : Wk τ} (hw : Waits Q s) (hpc : (s.proc p).pc = .wakeup r a)
    (hs : wakeup s p r a = some s') : Tokens s' := by
  cases a with
  | lock =>
    obtain ⟨s₁, hl, rfl⟩ := map_eq_some_iff.1 hs
    exact lock_tokens h hl hpc (fun _ => rfl) rfl rfl rfl
  | take =>
    dsimp only [wakeup] at hs
    split at hs
    all_goals
      cases hs
      exact h.goto hpc rfl (fun _ => rfl) rfl (fun _ => rfl) rfl rfl rfl
  | ready w =>
    cases hs
    exact ready_tokens (v := (.wakeup r .unlock, [])) h hw hpc rfl rfl (fun _ _ => rfl) rfl rfl rfl
  | unlock =>
    cases hs
    exact h.goto hpc rfl (fun _ => rfl) rfl (fun _ => rfl) rfl rfl rfl

theorem swiproc_tokens {t : τ} {i : Bool} {a : Sw} (hw : Waits Q s)
    (hpc : (s.proc p).pc = .swiproc t i a) (hs : swiproc s p t i a = some s') : Tokens s' := by
  cases a with
  | lockP | lockR r | lockS =>
    obtain ⟨s₁, hl, rfl⟩ := map_eq_some_iff.1 hs
    exact lock_tokens h hl hpc (fun _ => rfl) rfl rfl rfl
  | test r | host =>
    dsimp only [swiproc] at hs
    split at hs
    all_goals
      cases hs
      exact h.goto hpc rfl (fun _ => rfl) rfl (fun _ => rfl) rfl rfl rfl
  | ready r =>
    cases hs
    exact ready_tokens (v := (.swiproc t i (.unlockR r), [])) h hw hpc rfl rfl (fun _ _ => rfl) rfl rfl rfl
  | kill | unlockR r | unlockP | unlockH | unlockS =>
    cases hs
    exact h.goto hpc rfl (fun _ => rfl) rfl (fun _ => rfl) rfl rfl rfl

theorem notkilled_tokens {a : Nk} (hpc : (s.proc p).pc = .notkilled a)
    (hs : notkilled s p a = some s') : Tokens s' := by
  cases a with
  | lock =>
    obtain ⟨s₁, hl, rfl⟩ := map_eq_some_iff.1 hs
    exact lock_tokens h hl hpc (fun _ => rfl) rfl rfl rfl
  | clear | unlock =>
    cases hs
    exact h.goto hpc rfl (fun _ => rfl) rfl (fun _ => rfl) rfl rfl rfl

theorem call_tokens {c : Call τ} (hpc : (s.proc p).pc = .idle) (hs : call s p c = some s') :
    Tokens s' := by
  unfold call at hs
  split at hs
  case h_1 hnone =>
    cases hs
    refine h.goto hpc rfl (fun _ => rfl) rfl (fun _ => ?_) ?_ ?_ ?_
    all_goals cases c <;> first | rfl | cases hnone
  case h_2 hd hundo =>
    split at hs
    case isTrue hmem =>
      cases hs
      have hperm : (s.proc p).has.Perm ([hd] ++ (s.proc p).has.erase hd) :=
        perm_cons_erase (contains_iff_mem.1 hmem)
      refine h.move (Alike.symm (alike_of [hd] hperm ?_ ?_ ?_ ?_)) rfl (fun _ => rfl) rfl
      all_goals
        dsimp only
        rw [hpc]
        cases c <;> cases hundo <;> first | exact .of_eq rfl | rfl
    case isFalse => cases hs

theorem go_tokens {f : Bool} (hw : Waits Q s) (hsp : Spins s) (hs : go s p f = some s') : Tokens s' := by
  unfold go at hs
  split at hs
  case h_1 => cases hs
  case h_2 hpc => exact qlock_tokens h hw hpc hs
  case h_3 hpc =>
    cases hs
    exact canqlock_tokens h hw hsp hpc
  case h_4 hpc => exact qunlock_tokens h hw hsp hpc hs
  case h_5 hpc => exact rw_tokens h hsp hpc hs
  case h_6 hpc => exact sleep_tokens h hw hpc hs
  case h_7 hpc => exact wakeup_tokens h hw hpc hs
  case h_8 hpc => exact swiproc_tokens h hw hpc hs
  case h_9 hpc => exact notkilled_tokens h hpc hs

theorem step_tokens {a : Act τ} (hw : Waits Q s) (hsp : Spins s) (hs : step s a = some s') :
    Tokens s' := by
  cases a with
  | call p c =>
    dsimp only [step] at hs
    split at hs
    case h_1 hpc => exact call_tokens h hpc hs
    case h_2 => cases hs
  | go p f => exact go_tokens h hw hsp hs
  | syscall p v =>
    dsimp only [step] at hs
    split at hs
    · cases hs
      exact h.alike (fun u => Alike.refl _) (fun _ => rfl) rfl
    · cases hs

end

end Node9.Sync
