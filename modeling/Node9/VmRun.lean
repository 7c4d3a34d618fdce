import Node9.VmTable
import Node9.Lib.Steps

/-!
# Processes over time

A host starts with no processes. In every state a process is found by its pid, is a member of one group, and the
groups are a forest, as long as `newgrp` has memory when `new_vproc` calls it for the host. Without it, the new process
stays in the table, in no group.
-/

namespace Node9.Vm
open Linked Steps Function
open Option hiding map_map

inductive Act
  | new_vproc (parent : Parent) (dup : Dup) (mem : Mem)
  | newgrp (p : Nat) (mem : Bool)
  | delprog (p : Nat)
  /-- What else the kernel does with a process. -/
  | mark (p : Nat) (state : ProgState) (kill : Option String) (flags : Flags) (env : Osenv)

def step (s : Table) : Act → Option Table
  | .new_vproc parent dup mem => (newVproc parent dup mem s).map Prod.snd
  | .newgrp p mem => (newgrp p mem s).map Prod.snd
  | .delprog p => delprog p s
  | .mark p state kill flags env => s.setv p fun x => { x with state, kill, flags, env }

def start (host : Osenv) (ref : Nat → Nat) : Table := ⟨fun _ => none, fun _ => none, fun _ => none, 0, 0, 0, ref, host⟩

/-! ### What should hold -/

/-- There is memory for the group of a process that the host makes. -/
def Room (_ : Table) : Act → Prop
  | .new_vproc .host _ mem => mem.vproc = true → mem.group = true
  | _ => True

/-- The parent has all that a child shares. -/
def Complete (s : Table) (dup : Dup) : Parent → Prop
  | .host => (dup.pg = true → s.host.pgrp ≠ none) ∧ (dup.fdg = true → s.host.fgrp ≠ none) ∧ (dup.envg = true →
  s.host.egrp ≠ none)
  | .vm p => ∃ x, s.vproc p = some x ∧ x.env.pgrp ≠ none ∧ x.env.fgrp ≠ none ∧ x.env.egrp ≠ none

/-- The last of these says that nothing is touched that is freed, and that there is no panic but that for the pids. -/
structure Safe (s : Table) : Prop where
  found : ∀ pid v, progpid s pid = some v ↔ ∃ x, s.vproc v = some x ∧ x.pid = pid
  members : ∃ m, Members s m
  grouped : ∀ v, s.vproc v ≠ none → group s v ≠ none
  full : Full s
  forest : ∃ c, Forest s c none
  defined : (∀ p, s.vproc p ≠ none → delprog p s ≠ none ∧ ∀ mem, newgrp p mem s ≠ none) ∧
    ∀ parent dup mem, s.pidnum + 1 < 2 ^ 31 → Complete s dup parent → newVproc parent dup mem s ≠ none

def Grouped (s : Table) : Prop := ∀ v, s.vproc v ≠ none → group s v ≠ none

variable {s s' s₁ : Table} {b m c : Nat → List Nat} {v u g h p n pid : Nat} {x y : Vproc} {r : Option Nat}
    {o : Option Nat}
  {dup : Dup} {mem : Mem} {act : Act} {acts : List Act}

theorem alike_ref {f : Nat → Nat} : Alike s { s with ref := f } :=
  ⟨⟨fun _ => rfl, fun _ => rfl, rfl, rfl, rfl⟩, fun _ => rfl, fun _ => rfl, fun _ => rfl, rfl, rfl⟩

theorem Alike.trans (h : Alike s s₁) (h' : Alike s₁ s') : Alike s s' :=
  ⟨h.toSamePids.trans h'.toSamePids, fun v => (h'.group v).trans (h.group v), fun v => (h'.next v).trans (h.next v),
    fun v => (h'.prev v).trans (h.prev v), h'.progs.trans h.progs, h'.nprogs.trans h.nprogs⟩

theorem Alike.refl (s : Table) : Alike s s :=
  ⟨⟨fun _ => rfl, fun _ => rfl, rfl, rfl, rfl⟩, fun _ => rfl, fun _ => rfl, fun _ => rfl, rfl, rfl⟩

theorem alike_close : Alike s (close r s) := by
  cases r with
  | none => exact Alike.refl s
  | some a => exact alike_ref

theorem Alike.incref (h : Alike s s₁) (a : Nat) : Alike s (s₁.incref a) := h.trans alike_ref

theorem Alike.share (h : Alike s s₁) (r : Option Nat) : Alike s (Vm.share r s₁) := by
  cases r with
  | none => exact h
  | some a => exact h.incref a

theorem alike_of_setv {f : Vproc → Vproc} (hs : s.setv v f = some s')
    (hf : ∀ x, (f x).pid = x.pid ∧ (f x).pidlink = x.pidlink ∧ (f x).group = x.group ∧ (f x).grpnext = x.grpnext ∧
      (f x).grpprev = x.grpprev) : Alike s s' := by
  obtain ⟨x, hx, heq⟩ := map_eq_some_iff.1 hs
  cases heq
  exact alike_setv hx (hf x)

theorem dupref_spec {dup : Bool} (hr : dup = true → r ≠ none) : ∃ o s', dupref dup r s = some (o, s') ∧ Alike s s' ∧
    s'.host = s.host := by
  unfold dupref
  cases dup with
  | false => exact ⟨none, s, rfl, Alike.refl s, rfl⟩
  | true =>
    obtain ⟨a, ha⟩ := ne_none_iff_exists'.1 (hr rfl)
    exact ⟨some a, s.incref a, by rw [ha]; rfl, alike_ref, rfl⟩

theorem alike_dupref {dup : Bool} (h : dupref dup r s = some (o, s')) : Alike s s' ∧ s'.host = s.host := by
  unfold dupref at h
  cases dup with
  | false =>
    cases h
    exact ⟨Alike.refl s, rfl⟩
  | true =>
    obtain ⟨a, -, heq⟩ := map_eq_some_iff.1 h
    cases heq
    exact ⟨alike_ref, rfl⟩

/-- The process `n` of the table has come to the groups. -/
structure Placed (n : Nat) (b : Nat → List Nat) (s s' : Table) : Prop where
  core : ∃ m c, Core s' b m c
  pids : SamePids s s'
  group : ∀ v, v ≠ n → group s' v = group s v

theorem newgrp_nomem (hx : s.vproc p = some x) (hg : group s p = none) : newgrp p false s = some (.error Enomem,
    s) := by
  have hxg : x.group = none := by simpa [group, hx] using hg
  have hlead : leads p s = some false := by
    unfold leads
    simp only [hx, bind_eq_bind, bind_some, hxg]
  unfold newgrp
  simp only [hlead, bind_eq_bind, bind_some]
  rfl

theorem newgrp_placed (mem : Bool) (hc : Core s b m c) (hx : s.vproc n = some x) (hg : group s n = none) :
    ∃ r s', newgrp n mem s = some (r, s') ∧ Placed n b s s' ∧
      (mem = true ∧ r = .ok () ∧ Vm.group s' n ≠ none ∨ mem = false ∧ r = .error Enomem ∧ Vm.group s' n = none) := by
  obtain ⟨r, s', m', c', hs', hc', hj, hr⟩ := newgrp_spec mem hc hx
  refine ⟨r, s', hs', ⟨⟨m', c', hc'⟩, hj.pids, hj.group⟩, ?_⟩
  cases mem with
  | true =>
    rcases hr with ⟨hok, hne⟩ | ⟨-, -, hmem⟩
    · exact .inl ⟨rfl, hok, hne⟩
    · cases hmem
  | false =>
    rw [newgrp_nomem hx hg] at hs'
    cases hs'
    exact .inr ⟨rfl, rfl, hg⟩

theorem fromHost_spec {mem : Bool} {r : Except String Unit} (hc : Core s b m c) (hx : s.vproc n ≠ none)
    (hg : group s n = none)
    (hs : fromHost n dup mem s = some (r, s')) :
    Placed n b s s' ∧ (mem = true ∧ r = .ok () ∧ group s' n ≠ none ∨ mem = false ∧ r = .error Enomem ∧
    group s' n = none) := by
  unfold fromHost at hs
  simp only [bind_eq_bind, bind_eq_some_iff] at hs
  obtain ⟨⟨o₁, s₁⟩, h₁, ⟨o₂, s₂⟩, h₂, ⟨o₃, s₃⟩, h₃, s₄, h₄, h₅⟩ := hs
  have hal := ((alike_dupref h₁).1.trans (alike_dupref h₂).1).trans (alike_dupref h₃).1
  obtain ⟨x₃, hx₃⟩ := ne_none_iff_exists'.1 ((not_congr hal.toSamePids.none_iff).2 hx)
  dsimp only at h₄ h₅
  rw [setv_eq hx₃] at h₄
  cases h₄
  have hal₄ := hal.trans (alike_setv
    (f := fun x => { x with env := { x.env with pgrp := o₁, fgrp := o₂, egrp := o₃ } }) hx₃
    ⟨rfl, rfl, rfl, rfl, rfl⟩)
  obtain ⟨r', s₅, hs₅, hplaced, hr⟩ := newgrp_placed mem (hal₄.core hc) (update_self n _ s₃.vproc)
    ((hal₄.group n).trans hg)
  rw [hs₅] at h₅
  cases h₅
  exact ⟨⟨hplaced.core, hal₄.toSamePids.trans hplaced.pids, fun v hv => (hplaced.group v hv).trans (hal₄.group v)⟩, hr⟩

theorem addgrp_placed (hc : Core s b m c) (hn : s.vproc n ≠ none) (hg : group s n = none) (hp : s.vproc p = some x)
    (hnp : n ≠ p) :
    ∃ s', addgrp n p s = some s' ∧ Placed n b s s' ∧ group s' n = group s p ∧
      ∀ v, (s'.vproc v).map Vproc.env = (s.vproc v).map Vproc.env := by
  have hgx : group s p = x.group := by simp [group, hp]
  cases hx : x.group with
  | none =>
    obtain ⟨y, hy⟩ := ne_none_iff_exists'.1 hn
    have hyg : y.group = none := by simpa [group, hy] using hg
    have hal := alike_setv (f := fun z => { z with group := none }) hy ⟨rfl, rfl, hyg.symm, rfl, rfl⟩
    refine ⟨_, ?_, ⟨⟨m, c, hal.core hc⟩, hal.toSamePids, fun v _ => hal.group v⟩, ?_, fun v => ?_⟩
    · unfold addgrp
      simp only [hp, bind_eq_bind, bind_some, hx]
      exact setv_eq hy
    · rw [hal.group, hg, hgx, hx]
    · by_cases hv : v = n
      · simp [hv, hy]
      · simp [hv]
  | some g =>
    obtain ⟨s', hs', hk, hm, hgn, hgo⟩ := addgrp_spec hc.members hn hg hp hnp hx
    refine ⟨s', hs', ⟨⟨_, c, hk.regrouped.samePids.pids hc.pids, hm, hk.forest hc.forest, fun h hh => ?_⟩,
      hk.regrouped.samePids, hgo⟩,
      by rw [hgn, hgx, hx], fun v => ?_⟩
    · rw [hm.head h hh, update_apply]
      split
      · simp
      · have hh₀ := (not_congr hk.progs_none).1 hh
        rw [← hc.members.head h hh₀]
        exact hc.full h hh₀
    · have hv := congrArg (Option.map Vproc.env) (hk.vproc v)
      rwa [Option.map_map, Option.map_map] at hv

theorem fromVm_spec {r : Except String Unit} (hc : Core s b m c) (hn : s.vproc n ≠ none) (hg : group s n = none)
    (hp : s.vproc p ≠ none) (hnp : n ≠ p) (hs : fromVm n p s = some (r, s')) :
    Placed n b s s' ∧ group s' n = group s p := by
  obtain ⟨x, hx⟩ := ne_none_iff_exists'.1 hp
  obtain ⟨s₁, hs₁, hpl, hgn, -⟩ := addgrp_placed hc hn hg hx hnp
  obtain ⟨m₁, c₁, hc₁⟩ := hpl.core
  unfold fromVm at hs
  simp only [bind_eq_bind, bind_eq_some_iff, hs₁, Option.some.injEq, exists_eq_left'] at hs
  obtain ⟨vp, hvp, s₂, h₂, pg, hpg, fg, hfg, eg, heg, killed, hkilled, s₃, h₃, hs⟩ := hs
  have hal₂ := alike_of_setv h₂ fun _ => ⟨rfl, rfl, rfl, rfl, rfl⟩
  have hal := (((hal₂.incref pg).incref fg).incref eg).share vp.env.sigs
  have hal₃ := hal.trans (alike_of_setv h₃ fun _ => ⟨rfl, rfl, rfl, rfl, rfl⟩)
  have hs' : s' = s₃ := by
    split at hs
    · cases hs
      rfl
    · split at hs <;> cases hs <;> rfl
  rw [hs']
  exact ⟨⟨⟨m₁, c₁, hal₃.core hc₁⟩, hpl.pids.trans hal₃.toSamePids, fun v hv => (hal₃.group v).trans (hpl.group v hv)⟩,
    (hal₃.group n).trans hgn⟩

theorem enter_core (hc : Core s b m c) (hmax : s.pidnum + 1 < 2 ^ 31) :
    ∃ s' b' x, enter s = some (s.nvproc, s') ∧ Core s' b' m c ∧ s'.vproc s.nvproc = some x ∧ x.pid = s.pidnum + 1 ∧
      group s' s.nvproc = none ∧ (∀ v, v ≠ s.nvproc → (s'.vproc v = none ↔ s.vproc v = none)) ∧
      (∀ v, group s' v = group s v) ∧
      (∀ v, v ≠ s.nvproc → (s'.vproc v).map Vproc.env = (s.vproc v).map Vproc.env) ∧ s'.host = s.host ∧
      s.vproc s.nvproc = none := by
  obtain ⟨s', b', x, hs', hpids, hx, hxpid, hmap, henv, hgroup, hnext, hprev, hprogs, hnprogs, -, hhost⟩ :=
    enter_spec hc.pids hmax
  have hfresh : s.vproc s.nvproc = none := by
    by_contra hne
    exact lt_irrefl _ (hc.pids.lt _ hne)
  refine ⟨s', b', x, hs', ⟨hpids, hc.members.congr hgroup hnext hprev hprogs, hc.forest.of_progs hprogs hnprogs,
    hc.full.of_progs hprogs⟩, hx, hxpid, ?_, fun v hv => ?_, hgroup, henv, hhost, hfresh⟩
  · rw [hgroup]
    unfold group
    rw [hfresh]
    rfl
  · rw [← map_eq_none_iff (f := Vproc.pid), hmap v hv, map_eq_none_iff]

/-- The process `n` is new, and has a group unless there was no memory for one. -/
structure Made (parent : Parent) (mem : Mem) (s s' : Table) : Prop where
  core : ∃ b m c, Core s' b m c
  new : s'.vproc s.nvproc ≠ none
  found : progpid s' (s.pidnum + 1) = some s.nvproc
  live : ∀ v, v ≠ s.nvproc → (s'.vproc v = none ↔ s.vproc v = none)
  group : ∀ v, v ≠ s.nvproc → Vm.group s' v = Vm.group s v
  host : parent = .host → (mem.group = true ↔ Vm.group s' s.nvproc ≠ none)
  vm : ∀ p, parent = .vm p → s.vproc p ≠ none ∧ Vm.group s' s.nvproc = Vm.group s p

theorem newVproc_spec {parent : Parent} {r : Except String Nat} (hc : Core s b m c)
    (hs : newVproc parent dup mem s = some (r, s')) :
    mem.vproc = false ∧ s' = s ∨ mem.vproc = true ∧ s.pidnum + 1 < 2 ^ 31 ∧ Made parent mem s s' := by
  unfold newVproc at hs
  split at hs
  · cases hs
  next hlive =>
  split at hs
  · next hmem =>
    cases hs
    exact .inl ⟨hmem, rfl⟩
  next hmem =>
  simp only [bind_eq_bind, bind_eq_some_iff] at hs
  obtain ⟨⟨n, s₁⟩, hs₁, ⟨r', s₂⟩, hs₂, hs⟩ := hs
  dsimp only at hs₂ hs
  cases hs
  have hmax : s.pidnum + 1 < 2 ^ 31 := by
    by_contra hle
    unfold enter at hs₁
    dsimp only at hs₁
    rw [if_pos (le_of_not_gt hle)] at hs₁
    cases hs₁
  obtain ⟨t, b', x, ht, hc₁, hx, hxpid, hgn, hlive₁, hgroup, -, -, hfresh⟩ := enter_core hc hmax
  rw [ht] at hs₁
  cases hs₁
  have hn : s₁.vproc s.nvproc ≠ none := hx ▸ some_ne_none x
  have hfinish : Placed s.nvproc b' s₁ s' → (∃ b m c, Core s' b m c) ∧ s'.vproc s.nvproc ≠ none ∧
      progpid s' (s.pidnum + 1) = some s.nvproc ∧ (∀ v, v ≠ s.nvproc → (s'.vproc v = none ↔ s.vproc v = none)) ∧
      ∀ v, v ≠ s.nvproc → group s' v = group s v := fun hpl => by
    obtain ⟨m', c', hc'⟩ := hpl.core
    obtain ⟨x₂, hx', hpid₂⟩ := hpl.pids.get hx
    exact ⟨⟨b', m', c', hc'⟩, hx' ▸ some_ne_none x₂, hc'.pids.progpid.2 ⟨x₂, hx', hpid₂.trans hxpid⟩,
      fun v hv => hpl.pids.none_iff.trans (hlive₁ v hv), fun v hv => (hpl.group v hv).trans (hgroup v)⟩
  refine .inr ⟨Bool.eq_true_of_not_eq_false hmem, hmax, ?_⟩
  cases parent with
  | host =>
    obtain ⟨hpl, hr⟩ := fromHost_spec hc₁ hn hgn hs₂
    obtain ⟨hcore, hnew, hfound, hothers, hgroups⟩ := hfinish hpl
    refine ⟨hcore, hnew, hfound, hothers, hgroups, fun _ => ?_, fun p hp => by cases hp⟩
    rcases hr with ⟨hgm, -, hne⟩ | ⟨hgm, -, heq⟩
    · exact iff_of_true hgm hne
    · exact iff_of_false (by rw [hgm]; exact Bool.false_ne_true) (not_not_intro heq)
  | vm p =>
    have hp : s.vproc p ≠ none := by
      have hlive := Bool.eq_true_of_not_eq_false hlive
      exact isSome_iff_ne_none.1 hlive
    have hnp : s.nvproc ≠ p := fun heq => hp (heq ▸ hfresh)
    obtain ⟨hpl, hgp⟩ := fromVm_spec hc₁ hn hgn ((not_congr (hlive₁ p hnp.symm)).2 hp) hnp hs₂
    obtain ⟨hcore, hnew, hfound, hothers, hgroups⟩ := hfinish hpl
    refine ⟨hcore, hnew, hfound, hothers, hgroups, (fun h => by cases h), fun q hq => ?_⟩
    cases hq
    exact ⟨hp, hgp.trans (hgroup p)⟩

theorem close_vproc : (close r s).vproc = s.vproc := by
  cases r <;> rfl

theorem delprog_spec (hc : Core s b m c) (hp : s.vproc p = some x) :
    ∃ s', delprog p s = some s' ∧ (∃ b' m' c', Core s' b' m' c') ∧ s'.vproc p = none ∧
      ∀ v, v ≠ p → (s'.vproc v = none ↔ s.vproc v = none) ∧ group s' v = group s v := by
  have hal : Alike s (close x.env.sigs (close x.env.egrp (close x.env.fgrp (close x.env.pgrp s)))) :=
    ((alike_close.trans alike_close).trans alike_close).trans alike_close
  have hp₁ : (close x.env.sigs (close x.env.egrp (close x.env.fgrp (close x.env.pgrp s)))).vproc p = some x := by
    rw [close_vproc, close_vproc, close_vproc, close_vproc, hp]
  have hc₁ := hal.core hc
  obtain ⟨pg, s₂, m₂, c₂, hs₂, hm₂, hf₂, hfull₂, hr₂, hgp₂, hgo₂, -⟩ := delgrp_spec hc₁.members hc₁.forest hc₁.full hp₁
  obtain ⟨x₂, hx₂, hbare⟩ := hr₂.get hp₁
  obtain ⟨hprev, hnext⟩ := hm₂.loose p hgp₂
  obtain ⟨s₃, b₃, hs₃, hpids, hmap, hgroup, hnext', hprev', hprogs, hnprogs⟩ :=
    unhash_spec (hr₂.samePids.pids hc₁.pids) hx₂ hgp₂ hnext hprev
  have hpid : x₂.pid = x.pid := show x₂.bare.pid = x.bare.pid from congrArg Vproc.pid hbare
  rw [hpid] at hs₃
  refine ⟨{ s₃ with vproc := update s₃.vproc p none }, ?_,
    ⟨b₃, m₂, c₂, hpids, hm₂.congr hgroup hnext' hprev' hprogs, hf₂.of_progs hprogs hnprogs, hfull₂.of_progs hprogs⟩,
    update_self _ _ _, fun v hv => ⟨?_, ?_⟩⟩
  · unfold delprog
    simp only [hp, bind_eq_bind, bind_some, hs₂, hs₃]
  · have hnone : s₃.vproc v = none ↔ s₂.vproc v = none := by
      rw [← map_eq_none_iff (f := Vproc.pid), hmap v hv, map_eq_none_iff]
    dsimp only
    rw [update_of_ne hv, hnone, hr₂.samePids.none_iff, hal.toSamePids.none_iff]
  · rw [hgroup, hgo₂ v hv, hal.group]

/-! ### Nothing is touched that is freed -/

theorem fromHost_defined {mem : Bool} (hc : Core s b m c) (hn : s.vproc n ≠ none)
    (hpg : dup.pg = true → s.host.pgrp ≠ none) (hfdg : dup.fdg = true → s.host.fgrp ≠ none)
    (henvg : dup.envg = true → s.host.egrp ≠ none) : fromHost n dup mem s ≠ none := by
  obtain ⟨o₁, s₁, h₁, hal₁, hh₁⟩ := dupref_spec (s := s) hpg
  obtain ⟨o₂, s₂, h₂, hal₂, hh₂⟩ := dupref_spec (s := s₁) (r := s₁.host.fgrp) (by rw [hh₁]; exact hfdg)
  obtain ⟨o₃, s₃, h₃, hal₃, -⟩ := dupref_spec (s := s₂) (r := s₂.host.egrp) (by rw [hh₂, hh₁]; exact henvg)
  have hal := (hal₁.trans hal₂).trans hal₃
  obtain ⟨y, hy⟩ := ne_none_iff_exists'.1 ((not_congr hal.toSamePids.none_iff).2 hn)
  have hal₄ := hal.trans (alike_setv
    (f := fun x => { x with env := { x.env with pgrp := o₁, fgrp := o₂, egrp := o₃ } }) hy
    ⟨rfl, rfl, rfl, rfl, rfl⟩)
  obtain ⟨r, s', m', c', hs', -⟩ := newgrp_spec mem (hal₄.core hc) (update_self n _ s₃.vproc)
  unfold fromHost
  simp only [bind_eq_bind, h₁, h₂, h₃, bind_some, setv_eq hy, hs']
  exact some_ne_none _

theorem groupFlag_congr {f : Flags → Bool} {g : Option Nat} (h : s'.progs = s.progs) :
    groupFlag f g s' = groupFlag f g s := by
  unfold groupFlag
  rw [h]

theorem fromVm_defined (hc : Core s b m c) (hn : s.vproc n ≠ none) (hg : group s n = none) (hp : s.vproc p = some x)
    (hnp : n ≠ p)
    (hpg : x.env.pgrp ≠ none) (hfg : x.env.fgrp ≠ none) (heg : x.env.egrp ≠ none) : fromVm n p s ≠ none := by
  obtain ⟨s₁, hs₁, hpl, -, henv⟩ := addgrp_placed hc hn hg hp hnp
  obtain ⟨m₁, c₁, hc₁⟩ := hpl.core
  have hp₁ := henv p
  rw [hp] at hp₁
  obtain ⟨vp, hvp, hvenv⟩ := map_eq_some_iff.1 hp₁
  rw [← hvenv] at hpg hfg heg
  obtain ⟨pg, hpg⟩ := ne_none_iff_exists'.1 hpg
  obtain ⟨fg, hfg⟩ := ne_none_iff_exists'.1 hfg
  obtain ⟨eg, heg⟩ := ne_none_iff_exists'.1 heg
  obtain ⟨y, hy⟩ := ne_none_iff_exists'.1 ((not_congr hpl.pids.none_iff).2 hn)
  have hal₂ := alike_setv (f := fun x => { x with
    flags := if vp.flags.restrict then { vp.flags with restricted := true } else vp.flags, env := vp.env }) hy
    ⟨rfl, rfl, rfl, rfl, rfl⟩
  have hal := (((hal₂.incref pg).incref fg).incref eg).share vp.env.sigs
  obtain ⟨killed, hkilled⟩ := hc₁.members.groupFlag hvp Flags.killed
  obtain ⟨z, hz⟩ := ne_none_iff_exists'.1 ((not_congr hal.toSamePids.none_iff).2 (hvp ▸ some_ne_none vp))
  unfold fromVm
  simp only [hs₁, bind_eq_bind, bind_some, hvp, setv_eq hy, hpg, hfg, heg]
  rw [groupFlag_congr hal.progs, hkilled, bind_some, setv_eq hz, bind_some]
  split
  · exact some_ne_none _
  · split <;> exact some_ne_none _

theorem newVproc_defined {parent : Parent} (hc : Core s b m c) (hmax : s.pidnum + 1 < 2 ^ 31)
    (hpar : Complete s dup parent) :
    newVproc parent dup mem s ≠ none := by
  obtain ⟨s₁, b₁, x, hs₁, hc₁, hx, -, hg, -, -, henv, hhost, hfresh⟩ := enter_core hc hmax
  have hlive : parent.live s = true := by
    cases parent with
    | host => rfl
    | vm p =>
      obtain ⟨y, hy, -⟩ := hpar
      exact isSome_iff_ne_none.2 (hy ▸ some_ne_none y)
  have hn : s₁.vproc s.nvproc ≠ none := hx ▸ some_ne_none x
  have hplace : place s.nvproc parent dup mem.group s₁ ≠ none := by
    cases parent with
    | host =>
      obtain ⟨hpg, hfg, heg⟩ := hpar
      rw [← hhost] at hpg hfg heg
      exact fromHost_defined hc₁ hn hpg hfg heg
    | vm p =>
      obtain ⟨y, hy, hpg, hfg, heg⟩ := hpar
      have hnp : s.nvproc ≠ p := by
        rintro rfl
        rw [hfresh] at hy
        cases hy
      have hp := henv p hnp.symm
      rw [hy] at hp
      obtain ⟨y₁, hy₁, heq⟩ := map_eq_some_iff.1 hp
      rw [← heq] at hpg hfg heg
      exact fromVm_defined hc₁ hn hg hy₁ hnp hpg hfg heg
  obtain ⟨o, ho⟩ := ne_none_iff_exists'.1 hplace
  unfold newVproc
  rw [hlive, if_neg (by simp)]
  split
  · exact some_ne_none _
  · simp only [hs₁, bind_eq_bind, bind_some, ho]
    exact some_ne_none _

theorem Core.safe (hc : Core s b m c) (hg : Grouped s) : Safe s := by
  refine ⟨fun pid v => hc.pids.progpid, ⟨m, hc.members⟩, hg, hc.full, ⟨c, hc.forest⟩, fun p hp => ?_,
    fun parent dup mem hmax hpar => newVproc_defined hc hmax hpar⟩
  obtain ⟨x, hx⟩ := ne_none_iff_exists'.1 hp
  refine ⟨?_, fun mem => ?_⟩
  · obtain ⟨s', hs', -⟩ := delprog_spec hc hx
    exact hs' ▸ some_ne_none s'
  · obtain ⟨r, s', m', c', hs', -⟩ := newgrp_spec mem hc hx
    exact hs' ▸ some_ne_none (r, s')

def Inv (s : Table) : Prop := (∃ b m c, Core s b m c) ∧ Grouped s

theorem inv_start {host : Osenv} {ref : Nat → Nat} : Inv (start host ref) := by
  refine ⟨⟨fun _ => [], fun _ => [], fun _ => [], ⟨?_, ?_, ?_, ?_, ?_⟩, ⟨?_, ?_, ?_, ?_, ?_, ?_, ?_⟩,
    ⟨?_, ?_, ?_, ?_⟩, ?_⟩, ?_⟩
  · exact fun v hv => absurd rfl hv
  · exact fun v x hx => absurd hx.symm (some_ne_none x)
  · exact fun u v x y hx => absurd hx.symm (some_ne_none x)
  · exact fun h => rfl
  · exact fun h v => ⟨fun hv => absurd hv List.not_mem_nil, fun ⟨x, hx, _⟩ => absurd hx.symm (some_ne_none x)⟩
  · exact fun g hg => absurd rfl hg
  · exact fun g hg => absurd rfl hg
  · exact fun g hg => absurd rfl hg
  · exact fun g => List.nodup_nil
  · exact fun g v => ⟨fun hv => absurd hv List.not_mem_nil, fun hv => absurd hv.symm (some_ne_none g)⟩
  · exact fun v g hg => absurd hg.symm (some_ne_none g)
  · exact fun v _ => ⟨rfl, rfl⟩
  · exact fun g hg => absurd rfl hg
  · exact fun g hg => absurd rfl hg
  · exact fun g k => ⟨fun hk => absurd hk List.not_mem_nil, fun hk => absurd hk.2.symm (some_ne_none g)⟩
  · exact fun k g hk => absurd hk.symm (some_ne_none g)
  · exact fun g hg => absurd rfl hg
  · exact fun v hv => absurd rfl hv

theorem live_of_newgrp {mem : Bool} {r : Except String Unit} (hs : newgrp p mem s = some (r, s')) :
    s.vproc p ≠ none := by
  intro hp
  unfold newgrp leads at hs
  simp only [hp, bind_eq_bind, bind_none] at hs
  cases hs

theorem live_of_delprog (hs : delprog p s = some s') : s.vproc p ≠ none := by
  intro hp
  unfold delprog at hs
  simp only [hp, bind_eq_bind, bind_none] at hs
  cases hs

theorem Grouped.of_same (h : Grouped s) (hlive : ∀ v, s'.vproc v = none ↔ s.vproc v = none)
    (hgroup : ∀ v, group s' v = group s v) :
    Grouped s' := by
  intro v hv
  rw [hgroup]
  exact h v ((not_congr (hlive v)).1 hv)

theorem inv_step (h : Inv s) (hr : Room s act) (hs : step s act = some s') : Inv s' := by
  obtain ⟨⟨b, m, c, hc⟩, hg⟩ := h
  cases act with
  | new_vproc parent dup mem =>
    obtain ⟨⟨r, t⟩, ht, heq⟩ := map_eq_some_iff.1 hs
    cases heq
    rcases newVproc_spec hc ht with ⟨-, rfl⟩ | ⟨hmem, -, hmade⟩
    · exact ⟨⟨b, m, c, hc⟩, hg⟩
    refine ⟨hmade.core, fun v hv => ?_⟩
    by_cases hvn : v = s.nvproc
    · rw [hvn]
      cases parent with
      | host => exact (hmade.host rfl).1 (hr hmem)
      | vm p =>
        obtain ⟨hp, hgp⟩ := hmade.vm p rfl
        rw [hgp]
        exact hg p hp
    · rw [hmade.group v hvn]
      exact hg v ((not_congr (hmade.live v hvn)).1 hv)
  | newgrp p mem =>
    obtain ⟨⟨r, t⟩, ht, heq⟩ := map_eq_some_iff.1 hs
    cases heq
    obtain ⟨x, hx⟩ := ne_none_iff_exists'.1 (live_of_newgrp ht)
    obtain ⟨r', t', m', c', ht', hc', hj, hres⟩ := newgrp_spec mem hc hx
    rw [ht'] at ht
    cases ht
    rcases hres with ⟨-, hgp⟩ | ⟨-, rfl, -⟩
    · refine ⟨⟨b, m', c', hc'⟩, fun v hv => ?_⟩
      by_cases hvp : v = p
      · rw [hvp]
        exact hgp
      · rw [hj.group v hvp]
        exact hg v ((not_congr hj.pids.none_iff).1 hv)
    · exact ⟨⟨b, m, c, hc⟩, hg⟩
  | delprog p =>
    obtain ⟨x, hx⟩ := ne_none_iff_exists'.1 (live_of_delprog hs)
    obtain ⟨t, ht, hcore, hp, hothers⟩ := delprog_spec hc hx
    rw [show delprog p s = some s' from hs] at ht
    cases ht
    refine ⟨hcore, fun v hv => ?_⟩
    have hvp : v ≠ p := fun heq => hv (heq ▸ hp)
    obtain ⟨hlive, hgroup⟩ := hothers v hvp
    rw [hgroup]
    exact hg v ((not_congr hlive).1 hv)
  | mark p state kill flags env =>
    have hal : Alike s s' := alike_of_setv hs fun _ => ⟨rfl, rfl, rfl, rfl, rfl⟩
    exact ⟨⟨b, m, c, hal.core hc⟩, hg.of_same (fun v => hal.toSamePids.none_iff) hal.group⟩

theorem not_safe_step (h : Inv s) (hr : ¬ Room s act) (hs : step s act = some s') : ¬ Safe s' := by
  obtain ⟨⟨b, m, c, hc⟩, hg⟩ := h
  intro hsafe
  cases act with
  | new_vproc parent dup mem =>
    obtain ⟨⟨r, t⟩, ht, heq⟩ := map_eq_some_iff.1 hs
    cases heq
    cases parent with
    | vm p => exact hr trivial
    | host =>
      obtain ⟨hmem, hgroup⟩ := Classical.not_imp.1 hr
      rcases newVproc_spec hc ht with ⟨hno, -⟩ | ⟨-, -, hmade⟩
      · rw [hmem] at hno
        cases hno
      · exact hgroup ((hmade.host rfl).2 (hsafe.grouped _ hmade.new))
  | newgrp p mem => exact hr trivial
  | delprog p => exact hr trivial
  | mark p state kill flags env => exact hr trivial

/-- In every run, the table and the groups are as they should be just when there is memory for the groups of processes
that the host makes. -/
theorem always_safe_iff_room {host : Osenv} {ref : Nat → Nat} : Always step Safe (start host ref) acts ↔
    Along step Room (start host ref) acts :=
  always_iff_along (I := Inv) (fun _ h => by obtain ⟨⟨b, m, c, hc⟩, hg⟩ := h; exact hc.safe hg)
    (fun _ _ _ h hr hs => inv_step h hr hs) (fun _ _ _ h hr hs => not_safe_step h hr hs) inv_start

def aHost : Osenv := { pgrp := some 0, fgrp := some 1, egrp := some 2 }

def noGroup : List Act := [.new_vproc .host ⟨true, true, true⟩ ⟨true, false⟩]

theorem not_safe_noGroup : ¬ Always step Safe (start aHost fun _ => 1) noGroup := by
  intro h
  have hsafe : Safe _ := h.last rfl
  exact hsafe.grouped 0 (Option.some_ne_none _) rfl

/-! ### A process that is not made -/

inductive MCell
  | head (g : Nat)
  | grpnext (v : Nat)

def mcells (s : Table) : MCell → Option Nat
  | .head g => head s g
  | .grpnext v => next s v

def members (s : Table) (g : Nat) : List Nat := collect (mcells s) MCell.grpnext s.nvproc (.head g)

/-- The pids, the members of the groups and the references are as before. -/
structure Before (s s' : Table) : Prop where
  found : ∀ pid, progpid s' pid = progpid s pid
  members : ∀ g, members s' g = members s g
  ref : s'.ref = s.ref

/-- After an error, all is as before just when there was no memory for the process itself. -/
theorem before_iff {parent : Parent} {e : String} (h : ∃ b m c, Core s b m c)
    (hs : newVproc parent dup mem s = some (.error e, s')) : Before s s' ↔ mem.vproc = false := by
  obtain ⟨b, m, c, hc⟩ := h
  rcases newVproc_spec hc hs with ⟨hmem, rfl⟩ | ⟨hmem, -, hmade⟩
  · exact iff_of_true ⟨fun _ => rfl, fun _ => rfl, rfl⟩ hmem
  · refine iff_of_false (fun hbefore => ?_) (by rw [hmem]; exact Bool.false_ne_true.symm)
    have hfound := (hbefore.found _).symm.trans hmade.found
    obtain ⟨x, hx, hpid⟩ := hc.pids.progpid.1 hfound
    have hle := (hc.pids.pid _ x hx).2
    omega

def killedParent : List Act :=
  [.new_vproc .host ⟨true, true, true⟩ ⟨true, true⟩, .mark 0 .Pready (some "killed") {} aHost]

theorem before_iff_killedParent : ∃ s, run step (start aHost fun _ => 1) killedParent = some s ∧
    ∃ s', newVproc (.vm 0) ⟨true, true, true⟩ ⟨true, true⟩ s = some (.error "killed", s') ∧
      (Before s s' ↔ (⟨true, true⟩ : Mem).vproc = false) := by
  have hroom : Along step Room (start aHost fun _ => 1) killedParent :=
    .cons (fun _ => rfl) rfl <| .cons trivial rfl trivial
  have hinv := hroom.always (fun _ _ _ h hr hs => inv_step h hr hs) inv_start
  have hrun : ∃ s, run step (start aHost fun _ => 1) killedParent = some s ∧
      ∃ s', newVproc (.vm 0) ⟨true, true, true⟩ ⟨true, true⟩ s = some (.error "killed", s') := ⟨_, rfl, _, rfl⟩
  obtain ⟨s, hs, s', hs'⟩ := hrun
  exact ⟨s, hs, s', hs', before_iff (hinv.last hs).1 hs'⟩

theorem not_before_killedParent : ∃ s, run step (start aHost fun _ => 1) killedParent = some s ∧
    ∃ s', newVproc (.vm 0) ⟨true, true, true⟩ ⟨true, true⟩ s = some (.error "killed", s') ∧
      progpid s 2 = none ∧ progpid s' 2 = some 1 ∧ members s 0 = [0] ∧ members s' 0 = [0, 1] ∧ s.ref 0 = 2 ∧
      s'.ref 0 = 3 ∧
      ¬ Before s s' := by
  refine ⟨_, rfl, _, rfl, rfl, rfl, rfl, rfl, rfl, rfl, fun h => ?_⟩
  exact absurd (show some 1 = none from h.found 2) (Option.some_ne_none 1)

end Node9.Vm
