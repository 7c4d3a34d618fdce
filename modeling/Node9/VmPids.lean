import Node9.VmGroups

/-!
# Pids

A process is in the chain of the hash table that its pid belongs to, and is found there.
-/

namespace Node9.Vm
open Linked Function Option

structure Pids (s : Table) (b : Nat → List Nat) : Prop where
  lt : ∀ v, s.vproc v ≠ none → v < s.nvproc
  pid : ∀ v x, s.vproc v = some x → 0 < x.pid ∧ x.pid ≤ s.pidnum
  inj : ∀ u v x y, s.vproc u = some x → s.vproc v = some y → x.pid = y.pid → u = v
  chain : ∀ h, Chain (cells s) Cell.pidlink (.proghash h) (b h)
  mem : ∀ h v, v ∈ b h ↔ ∃ x, s.vproc v = some x ∧ x.pid % PROGHASH = h

structure SamePids (s s' : Table) : Prop where
  pid : ∀ v, (s'.vproc v).map Vproc.pid = (s.vproc v).map Vproc.pid
  pidlink : ∀ v, (s'.vproc v).bind Vproc.pidlink = (s.vproc v).bind Vproc.pidlink
  proghash : s'.proghash = s.proghash
  pidnum : s'.pidnum = s.pidnum
  nvproc : s'.nvproc = s.nvproc

variable {s s' s₁ : Table} {b m : Nat → List Nat} {v u n h pid : Nat} {x y : Vproc}

theorem SamePids.trans (h : SamePids s s₁) (h' : SamePids s₁ s') : SamePids s s' :=
  ⟨fun v => (h'.pid v).trans (h.pid v), fun v => (h'.pidlink v).trans (h.pidlink v), h'.proghash.trans h.proghash,
    h'.pidnum.trans h.pidnum, h'.nvproc.trans h.nvproc⟩

theorem SamePids.none_iff (h : SamePids s s') : s'.vproc v = none ↔ s.vproc v = none := by
  rw [← map_eq_none_iff (f := Vproc.pid), h.pid, map_eq_none_iff]

theorem SamePids.get (h : SamePids s s') (hv : s.vproc v = some x) : ∃ x', s'.vproc v = some x' ∧ x'.pid = x.pid := by
  have heq := h.pid v
  rw [hv] at heq
  exact map_eq_some_iff.1 heq

theorem SamePids.get' (h : SamePids s s') (hv : s'.vproc v = some y) : ∃ x, s.vproc v = some x ∧ y.pid = x.pid := by
  have heq := h.pid v
  rw [hv] at heq
  obtain ⟨x, hx, heq⟩ := map_eq_some_iff.1 heq.symm
  exact ⟨x, hx, heq.symm⟩

theorem SamePids.cells (h : SamePids s s') : cells s' = cells s := by
  funext l
  cases l with
  | proghash i => exact congrFun h.proghash i
  | pidlink v => exact h.pidlink v

theorem SamePids.pids (h : SamePids s s') (hp : Pids s b) : Pids s' b := by
  refine ⟨fun v hv => ?_, fun v x hv => ?_, fun u v x y hu hv hpid => ?_, fun i => h.cells ▸ hp.chain i, fun i v => ?_⟩
  · rw [h.nvproc]
    exact hp.lt v ((not_congr h.none_iff).1 hv)
  · obtain ⟨x₀, hx₀, heq⟩ := h.get' hv
    rw [h.pidnum, heq]
    exact hp.pid v x₀ hx₀
  · obtain ⟨x₀, hx₀, heq⟩ := h.get' hu
    obtain ⟨y₀, hy₀, heq'⟩ := h.get' hv
    exact hp.inj u v x₀ y₀ hx₀ hy₀ (heq.symm.trans (hpid.trans heq'))
  rw [hp.mem i v]
  constructor
  · rintro ⟨x, hx, hi⟩
    obtain ⟨x', hx', heq⟩ := h.get hx
    exact ⟨x', hx', by rw [heq, hi]⟩
  · rintro ⟨x, hx, hi⟩
    obtain ⟨x₀, hx₀, heq⟩ := h.get' hx
    exact ⟨x₀, hx₀, by rw [← heq, hi]⟩

theorem store_spec {l : Cell} {v : Option Nat} (hl : ∀ u, l = .pidlink u → s.vproc u ≠ none) :
    ∃ s', store s l v = some s' ∧ cells s' = update (cells s) l v ∧
      (∀ u, (s'.vproc u).map Vproc.pid = (s.vproc u).map Vproc.pid) ∧
      (∀ u, (s'.vproc u).map Vproc.env = (s.vproc u).map Vproc.env) ∧ (∀ u, group s' u = group s u) ∧
      (∀ u, next s' u = next s u) ∧ (∀ u, prev s' u = prev s u) ∧ s'.progs = s.progs ∧ s'.pidnum = s.pidnum ∧
      s'.nvproc = s.nvproc ∧ s'.nprogs = s.nprogs ∧ s'.ref = s.ref ∧ s'.host = s.host := by
  cases l with
  | proghash h =>
    refine ⟨_, rfl, ?_, fun _ => rfl, fun _ => rfl, fun _ => rfl, fun _ => rfl, fun _ => rfl, rfl, rfl, rfl, rfl,
      rfl, rfl⟩
    funext l
    cases l with
    | proghash i =>
      by_cases hi : i = h
      · subst hi
        simp [cells]
      · simp [cells, hi]
    | pidlink u => simp [cells]
  | pidlink w =>
    obtain ⟨x, hx⟩ := ne_none_iff_exists'.1 (hl w rfl)
    refine ⟨_, setv_eq hx, ?_, fun u => ?_, fun u => ?_, fun u => ?_, fun u => ?_, fun u => ?_, rfl, rfl, rfl, rfl,
      rfl, rfl⟩
    · funext l
      cases l with
      | proghash i => simp [cells]
      | pidlink u =>
        by_cases hu : u = w
        · subst hu
          simp [cells]
        · simp [cells, hu]
    all_goals
      by_cases hu : u = w
      · subst hu
        simp [group, next, prev, hx]
      · simp [group, next, prev, hu]

theorem pidlink_injective : Injective Cell.pidlink := fun _ _ h => Cell.pidlink.inj h

theorem proghash_ne_pidlink (h v : Nat) : Cell.proghash h ≠ Cell.pidlink v := by
  intro heq
  cases heq

theorem Pids.live (hp : Pids s b) (hv : v ∈ b h) : s.vproc v ≠ none := by
  obtain ⟨x, hx, -⟩ := (hp.mem h v).1 hv
  rw [hx]
  exact some_ne_none x

theorem Pids.length_le (hp : Pids s b) : (b h).length ≤ s.nvproc := by
  have hsub : b h ⊆ List.range s.nvproc := fun v hv => List.mem_range.2 (hp.lt v (hp.live hv))
  have hle := (List.subperm_of_subset (hp.chain h).nodup hsub).length_le
  rwa [List.length_range] at hle

theorem Pids.pidlook (hp : Pids s b) : Vm.pidlook s pid =
    (endCell Cell.pidlink (.proghash (pid % PROGHASH)) ((b (pid % PROGHASH)).takeWhile fun v => !hasPid s pid v),
      (b (pid % PROGHASH)).find? (hasPid s pid)) :=
  (hp.chain _).seek_eq (Nat.lt_succ_of_le hp.length_le)

theorem hasPid_iff : hasPid s pid v = true ↔ ∃ x, s.vproc v = some x ∧ x.pid = pid := by
  unfold hasPid
  cases s.vproc v <;> simp

theorem Pids.progpid (hp : Pids s b) : Vm.progpid s pid = some v ↔ ∃ x, s.vproc v = some x ∧ x.pid = pid := by
  unfold Vm.progpid
  rw [hp.pidlook]
  constructor
  · intro hfind
    exact hasPid_iff.1 (List.find?_some hfind)
  rintro ⟨x, hx, hpid⟩
  have hmem : v ∈ b (pid % PROGHASH) := (hp.mem _ v).2 ⟨x, hx, by rw [hpid]⟩
  dsimp only
  cases hfind : (b (pid % PROGHASH)).find? (hasPid s pid) with
  | none => exact absurd (hasPid_iff.2 ⟨x, hx, hpid⟩) (List.find?_eq_none.1 hfind v hmem)
  | some u =>
    obtain ⟨y, hy, hpid'⟩ := hasPid_iff.1 (List.find?_some hfind)
    rw [hp.inj u v y x hy hx (hpid'.trans hpid.symm)]

/-! ### A process comes and goes -/

theorem enter_spec (hp : Pids s b) (hmax : s.pidnum + 1 < 2 ^ 31) :
    ∃ s' b' x, enter s = some (s.nvproc, s') ∧ Pids s' b' ∧ s'.vproc s.nvproc = some x ∧ x.pid = s.pidnum + 1 ∧
      (∀ v, v ≠ s.nvproc → (s'.vproc v).map Vproc.pid = (s.vproc v).map Vproc.pid) ∧
      (∀ v, v ≠ s.nvproc → (s'.vproc v).map Vproc.env = (s.vproc v).map Vproc.env) ∧ (∀ v, group s' v = group s v) ∧
      (∀ v, next s' v = next s v) ∧ (∀ v, prev s' v = prev s v) ∧ s'.progs = s.progs ∧ s'.nprogs = s.nprogs ∧
      s'.ref = s.ref ∧ s'.host = s.host := by
  have hfresh : s.vproc s.nvproc = none := by
    by_contra hne
    exact lt_irrefl _ (hp.lt _ hne)
  have hne : ∀ h, ∀ v ∈ b h, v ≠ s.nvproc := fun h v hv heq => hp.live hv (heq ▸ hfresh)
  set s₁ : Table := { s with
    vproc := update s.vproc s.nvproc (some { pid := s.pidnum + 1 }), nvproc := s.nvproc + 1, pidnum :=
      s.pidnum + 1 }
    with hs₁
  have hold : ∀ v, v ≠ s.nvproc → s₁.vproc v = s.vproc v := fun v hv => update_of_ne hv _ _
  have hnew : s₁.vproc s.nvproc = some { pid := s.pidnum + 1 } := update_self _ _ _
  have hcells : cells s₁ = cells s := by
    funext l
    cases l with
    | proghash i => rfl
    | pidlink v =>
      show (s₁.vproc v).bind Vproc.pidlink = (s.vproc v).bind Vproc.pidlink
      by_cases hv : v = s.nvproc
      · rw [hv, hnew, hfresh]
        rfl
      · rw [hold v hv]
  have hview : ∀ {α : Type} (f : Vproc → Option α), f { pid := s.pidnum + 1 } = none → ∀ v, (s₁.vproc v).bind f =
    (s.vproc v).bind f := by
    intro α f hf v
    by_cases hv : v = s.nvproc
    · rw [hv, hnew, hfresh]
      exact hf
    · rw [hold v hv]
  have hpids : ∀ v x, s.vproc v = some x → x.pid ≠ s.pidnum + 1 := fun v x hx heq => by
    have hle := (hp.pid v x hx).2
    omega
  have hchain := hp.chain ((s.pidnum + 1) % PROGHASH)
  -- nobody has the pid
  have hlook : pidlook s₁ (s.pidnum + 1) =
      (endCell Cell.pidlink (.proghash ((s.pidnum + 1) % PROGHASH)) (b ((s.pidnum + 1) % PROGHASH)), none) := by
    have hnone : ∀ v ∈ b ((s.pidnum + 1) % PROGHASH), hasPid s₁ (s.pidnum + 1) v = false := fun v hv => by
      rw [← Bool.not_eq_true, hasPid_iff]
      rintro ⟨x, hx, hpid⟩
      rw [hold v (hne _ v hv)] at hx
      exact hpids v x hx hpid
    unfold pidlook
    rw [hcells, hchain.seek_eq (Nat.lt_succ_of_le (hp.length_le.trans (Nat.le_succ _)))]
    refine Prod.ext ?_ (List.find?_eq_none.2 fun v hv => by rw [hnone v hv]; exact Bool.false_ne_true)
    rw [List.takeWhile_eq_self_iff.2 fun v hv => by rw [hnone v hv]; rfl]
  have hcell : ∀ u, endCell Cell.pidlink (.proghash ((s.pidnum + 1) % PROGHASH)) (b ((s.pidnum + 1) % PROGHASH)) =
    .pidlink u →
      u ∈ b ((s.pidnum + 1) % PROGHASH) := fun u hu => by
    rcases endCell_eq_or Cell.pidlink (.proghash ((s.pidnum + 1) % PROGHASH)) (b ((s.pidnum + 1) % PROGHASH))
      with ⟨heq, -⟩ | ⟨a, ha, heq⟩
    · exact absurd (heq.symm.trans hu) (proghash_ne_pidlink _ u)
    · rwa [← pidlink_injective (heq.symm.trans hu)]
  obtain ⟨s', hs', hc', hpid', henv', hg', hn', hp', hprogs', hpidnum', hnv', hng', href', hhost'⟩ :=
    store_spec (s := s₁) (v := some s.nvproc) fun u hu => by
      rw [hold u (hne _ u (hcell u hu))]
      exact hp.live (hcell u hu)
  obtain ⟨x, hx, hxpid⟩ := map_eq_some_iff.1 ((hpid' s.nvproc).trans (congrArg (Option.map Vproc.pid) hnew))
  refine ⟨s', update b ((s.pidnum + 1) % PROGHASH) (b ((s.pidnum + 1) % PROGHASH) ++ [s.nvproc]), x, ?_,
    ?_, hx, hxpid,
    fun v hv => (hpid' v).trans (congrArg _ (hold v hv)), fun v hv => (henv' v).trans (congrArg _ (hold v hv)),
      fun v => (hg' v).trans (hview Vproc.group rfl v),
    fun v => (hn' v).trans (hview Vproc.grpnext rfl v), fun v => (hp' v).trans (hview Vproc.grpprev rfl v), hprogs',
      hng', href', hhost'⟩
  · unfold enter
    simp only [bind_eq_bind]
    rw [if_neg (Nat.not_le.2 hmax), ← hs₁, hlook, if_neg (by simp), hs']
    rfl
  have hpidOf : ∀ v, v ≠ s.nvproc → (s'.vproc v).map Vproc.pid = (s.vproc v).map Vproc.pid := fun v hv =>
    (hpid' v).trans (congrArg _ (hold v hv))
  have hget : ∀ v y, s'.vproc v = some y → v = s.nvproc ∧ y.pid = s.pidnum + 1 ∨ ∃ x, s.vproc v = some x ∧
    x.pid = y.pid := by
    intro v y hy
    by_cases hv : v = s.nvproc
    · subst hv
      rw [hx] at hy
      cases hy
      exact .inl ⟨rfl, hxpid⟩
    · have hmap := hpidOf v hv
      rw [hy] at hmap
      exact .inr (map_eq_some_iff.1 hmap.symm)
  refine ⟨fun v hv => ?_, fun v y hy => ?_, fun u v y z hy hz hpid => ?_, fun h => ?_, fun h v => ?_⟩
  · rw [hnv']
    obtain ⟨y, hy⟩ := ne_none_iff_exists'.1 hv
    rcases hget v y hy with ⟨rfl, -⟩ | ⟨x, hx, -⟩
    · exact Nat.lt_succ_self _
    · exact (hp.lt v (hx ▸ some_ne_none x)).trans (Nat.lt_succ_self _)
  · rw [hpidnum']
    show 0 < y.pid ∧ y.pid ≤ s.pidnum + 1
    rcases hget v y hy with ⟨-, hpid⟩ | ⟨x, hx, hpid⟩
    · omega
    · have hle := hp.pid v x hx
      omega
  · rcases hget u y hy with ⟨rfl, hu⟩ | ⟨x, hx, hu⟩ <;> rcases hget v z hz with ⟨rfl, hv⟩ | ⟨w, hw, hv⟩
    · rfl
    · exact absurd (hv.trans (hpid.symm.trans hu)) (hpids v w hw)
    · exact absurd (hu.trans (hpid.trans hv)) (hpids u x hx)
    · exact hp.inj u v x w hx hw (hu.trans (hpid.trans hv.symm))
  · rw [hc', hcells]
    by_cases hh : h = (s.pidnum + 1) % PROGHASH
    · subst hh
      rw [update_self]
      have hsnoc := hchain.snoc (a := s.nvproc) (proghash_ne_pidlink _ _)
        (fun hmem => hne _ _ hmem rfl) pidlink_injective
        fun v _ => proghash_ne_pidlink _ v
      have hsame : update (update (cells s)
        (endCell Cell.pidlink (.proghash ((s.pidnum + 1) % PROGHASH))
          (b ((s.pidnum + 1) % PROGHASH))) (some s.nvproc)) (.pidlink s.nvproc) none =
          update (cells s) (endCell Cell.pidlink (.proghash ((s.pidnum + 1) % PROGHASH))
          (b ((s.pidnum + 1) % PROGHASH))) (some s.nvproc) := by
        refine update_eq_self_iff.2 ?_
        rw [update_of_ne fun heq => hne _ _ (hcell _ heq.symm) rfl]
        exact (congrArg (Option.bind · Vproc.pidlink) hfresh).symm
      rwa [hsame] at hsnoc
    · rw [update_of_ne hh]
      refine (hp.chain h).update_ne (fun heq => ?_) fun v hv heq => ?_
      · rcases endCell_eq_or Cell.pidlink (.proghash ((s.pidnum + 1) % PROGHASH)) (b ((s.pidnum + 1) % PROGHASH)) with
          ⟨hend, -⟩ | ⟨a, -, hend⟩
        · exact hh (Cell.proghash.inj (heq.trans hend))
        · exact proghash_ne_pidlink h a (heq.trans hend)
      · obtain ⟨x, hx, hxh⟩ := (hp.mem h v).1 hv
        obtain ⟨y, hy, hyh⟩ := (hp.mem _ v).1 (hcell v heq.symm)
        rw [hx] at hy
        cases hy
        exact hh (hxh.symm.trans hyh)
  · rw [update_apply]
    by_cases hv : v = s.nvproc
    · subst hv
      have hin : (∃ y, s'.vproc s.nvproc = some y ∧ y.pid % PROGHASH = h) ↔ h = (s.pidnum + 1) % PROGHASH := by
        rw [hx]
        simp [hxpid, eq_comm]
      rw [hin]
      split
      · next hh => simp [hh]
      · next hh => exact ⟨fun hmem => absurd rfl (hne h _ hmem), fun heq => absurd heq hh⟩
    have hold' : (∃ y, s'.vproc v = some y ∧ y.pid % PROGHASH = h) ↔ v ∈ b h := by
      rw [hp.mem h v]
      constructor
      · rintro ⟨y, hy, hyh⟩
        rcases hget v y hy with ⟨heq, -⟩ | ⟨x, hx, hpid⟩
        · exact absurd heq hv
        · exact ⟨x, hx, by rw [hpid, hyh]⟩
      · rintro ⟨x, hx, hxh⟩
        have hmap := hpidOf v hv
        rw [hx] at hmap
        obtain ⟨y, hy, hpid⟩ := map_eq_some_iff.1 hmap
        exact ⟨y, hy, by rw [hpid, hxh]⟩
    rw [hold']
    split
    · next hh => simp [hh, hv]
    · rfl

theorem unhash_spec {p : Nat} (hp : Pids s b) (hx : s.vproc p = some x) (hg : group s p = none) (hn : next s p = none)
    (hpr : prev s p = none) :
    ∃ s₁ b', unhash p x.pid s = some s₁ ∧ Pids { s₁ with vproc := update s₁.vproc p none } b' ∧
      (∀ v, v ≠ p → (s₁.vproc v).map Vproc.pid = (s.vproc v).map Vproc.pid) ∧
      (∀ v, group { s₁ with vproc := update s₁.vproc p none } v = group s v) ∧
      (∀ v, next { s₁ with vproc := update s₁.vproc p none } v = next s v) ∧
      (∀ v, prev { s₁ with vproc := update s₁.vproc p none } v = prev s v) ∧ s₁.progs = s.progs ∧
      s₁.nprogs = s.nprogs := by
  have hchain := hp.chain (x.pid % PROGHASH)
  have hlen := Nat.lt_succ_of_le (hp.length_le (h := x.pid % PROGHASH))
  have hfind : (b (x.pid % PROGHASH)).find? (hasPid s x.pid) = some p := by
    have hprog := hp.progpid.2 ⟨x, hx, rfl⟩
    unfold progpid at hprog
    rwa [hp.pidlook] at hprog
  have hlook : pidlook s x.pid = (_, (b (x.pid % PROGHASH)).find? (hasPid s x.pid)) := hp.pidlook
  rw [hfind] at hlook
  have hcell : ∀ u, endCell Cell.pidlink (.proghash (x.pid % PROGHASH)) ((b (x.pid % PROGHASH)).takeWhile
    fun v => !hasPid s x.pid v) =
      .pidlink u → u ∈ b (x.pid % PROGHASH) := fun u hu => by
    rcases endCell_eq_or Cell.pidlink (.proghash (x.pid % PROGHASH)) ((b (x.pid % PROGHASH)).takeWhile
      fun v => !hasPid s x.pid v) with
      ⟨heq, -⟩ | ⟨a, ha, heq⟩
    · exact absurd (heq.symm.trans hu) (proghash_ne_pidlink _ u)
    · rw [← pidlink_injective (heq.symm.trans hu)]
      exact (List.takeWhile_sublist _).subset ha
  obtain ⟨s₁, hs₁, hc₁, hpid₁, -, hg₁, hn₁, hp₁, hprogs₁, hpidnum₁, hnv₁, hng₁, -, -⟩ :=
    store_spec (s := s) (v := x.pidlink) fun u hu => hp.live (hcell u hu)
  obtain ⟨hun, -, hothers⟩ := unlinkFirst_spec pidlink_injective hchain (p := hasPid s x.pid) hlen fun v _ =>
    proghash_ne_pidlink _ v
  have hseek := hchain.seek_eq (p := hasPid s x.pid) hlen
  have hlink : cells s (.pidlink p) = x.pidlink := by simp [cells, hx]
  simp only [unlinkFirst_eq_seek, hseek, hfind, hlink, ← hc₁] at hun hothers
  have herase : (b (x.pid % PROGHASH)).eraseP (hasPid s x.pid) = (b (x.pid % PROGHASH)).erase p := by
    obtain ⟨hpp, xs, ys, hxy, hxs⟩ := List.find?_eq_some_iff_append.1 hfind
    have hnd := hchain.nodup
    rw [hxy] at hnd ⊢
    rw [erase_eq hnd, List.eraseP_append_right _ fun v hv => by simpa using hxs v hv, List.eraseP_cons_of_pos hpp]
  rw [herase] at hun
  set s₂ : Table := { s₁ with vproc := update s₁.vproc p none } with hs₂
  have hgone : s₂.vproc p = none := update_self _ _ _
  have hold : ∀ v, v ≠ p → s₂.vproc v = s₁.vproc v := fun v hv => update_of_ne hv _ _
  have hcells : ∀ l, l ≠ .pidlink p → cells s₂ l = cells s₁ l := fun l hl => by
    cases l with
    | proghash i => rfl
    | pidlink v =>
      show (s₂.vproc v).bind Vproc.pidlink = (s₁.vproc v).bind Vproc.pidlink
      rw [hold v fun heq => hl (congrArg _ heq)]
  have hget : ∀ v y, s₂.vproc v = some y → v ≠ p ∧ ∃ z, s.vproc v = some z ∧ z.pid = y.pid := fun v y hy => by
    have hv : v ≠ p := by
      rintro rfl
      rw [hgone] at hy
      cases hy
    have hmap := hpid₁ v
    rw [← hold v hv, hy] at hmap
    exact ⟨hv, map_eq_some_iff.1 hmap.symm⟩
  have hview : ∀ {α : Type} (f : Vproc → Option α), (s.vproc p).bind f = none →
    (∀ v, (s₁.vproc v).bind f = (s.vproc v).bind f) →
      ∀ v, (s₂.vproc v).bind f = (s.vproc v).bind f := by
    intro α f hf hsame v
    by_cases hv : v = p
    · rw [hv, hgone, hf]
      rfl
    · rw [hold v hv, hsame v]
  refine ⟨s₁, update b (x.pid % PROGHASH) ((b (x.pid % PROGHASH)).erase p), ?_,
    ⟨fun v hv => ?_, fun v y hy => ?_, fun u v y z hy hz hpid => ?_, fun h => ?_, fun h v => ?_⟩, fun v hv => hpid₁ v,
    hview Vproc.group hg hg₁, hview Vproc.grpnext hn hn₁, hview Vproc.grpprev hpr hp₁, hprogs₁, hng₁⟩
  · unfold unhash
    simp only [bind_eq_bind, hlook, bind_some, hx, hs₁]
  · obtain ⟨y, hy⟩ := ne_none_iff_exists'.1 hv
    obtain ⟨-, z, hz, -⟩ := hget v y hy
    exact (hp.lt v (hz ▸ some_ne_none z)).trans_eq hnv₁.symm
  · obtain ⟨-, z, hz, hpid⟩ := hget v y hy
    rw [← hpid]
    exact (hp.pid v z hz).imp_right fun hle => hle.trans_eq hpidnum₁.symm
  · obtain ⟨-, y', hy', hu⟩ := hget u y hy
    obtain ⟨-, z', hz', hv⟩ := hget v z hz
    exact hp.inj u v y' z' hy' hz' (hu.trans (hpid.trans hv.symm))
  · by_cases hh : h = x.pid % PROGHASH
    · subst hh
      rw [update_self]
      refine hun.congr (hcells _ (proghash_ne_pidlink _ _)) fun v hv => hcells _ fun heq => ?_
      exact hchain.nodup.not_mem_erase (pidlink_injective heq ▸ hv)
    rw [update_of_ne hh]
    have hnot : ∀ v ∈ b h, v ∉ b (x.pid % PROGHASH) := fun v hv hv' => by
      obtain ⟨y, hy, hyh⟩ := (hp.mem h v).1 hv
      obtain ⟨z, hz, hzh⟩ := (hp.mem _ v).1 hv'
      rw [hy] at hz
      cases hz
      exact hh (hyh.symm.trans hzh)
    have hpb : p ∈ b (x.pid % PROGHASH) := (hp.mem _ p).2 ⟨x, hx, rfl⟩
    refine (hp.chain h).congr ?_ fun v hv => ?_
    · rw [hcells _ (proghash_ne_pidlink _ _)]
      exact hothers _ (fun heq => hh (Cell.proghash.inj heq)) fun v _ => proghash_ne_pidlink h v
    · have hvp : v ≠ p := fun heq => hnot v hv (heq ▸ hpb)
      rw [hcells _ fun heq => hvp (pidlink_injective heq)]
      exact hothers _ (proghash_ne_pidlink _ v).symm fun u hu heq => hnot v hv (pidlink_injective heq ▸ hu)
  · rw [update_apply]
    by_cases hv : v = p
    · subst hv
      rw [hgone]
      simp only [reduceCtorEq, false_and, exists_false, iff_false]
      split
      · exact hchain.nodup.not_mem_erase
      next hh =>
      intro hmem
      obtain ⟨z, hz, hzh⟩ := (hp.mem h v).1 hmem
      rw [hx] at hz
      cases hz
      exact hh hzh.symm
    have hin : (∃ y, s₂.vproc v = some y ∧ y.pid % PROGHASH = h) ↔ v ∈ b h := by
      rw [hp.mem h v]
      constructor
      · rintro ⟨y, hy, hyh⟩
        obtain ⟨-, z, hz, hpid⟩ := hget v y hy
        exact ⟨z, hz, by rw [hpid, hyh]⟩
      · rintro ⟨z, hz, hzh⟩
        have hmap := hpid₁ v
        rw [hz, ← hold v hv] at hmap
        obtain ⟨y, hy, hpid⟩ := map_eq_some_iff.1 hmap
        exact ⟨y, hy, by rw [hpid, hzh]⟩
    rw [hin]
    split
    · next hh => rw [List.mem_erase_of_ne hv, hh]
    · rfl

end Node9.Vm
