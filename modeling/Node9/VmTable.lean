import Node9.VmPids
import Node9.VmForest

/-!
# The process table

What holds of the table in every state: a process is found by its pid, the members and the forest are as they should
be, and a group has a member.
-/

namespace Node9.Vm
open Linked Function
open Option hiding map_map

def Full (s : Table) : Prop := ∀ g, s.progs g ≠ none → head s g ≠ none

structure Core (s : Table) (b m c : Nat → List Nat) : Prop where
  pids : Pids s b
  members : Members s m
  forest : Forest s c none
  full : Full s

/-- The processes are the same but for their groups, and no group is new. -/
structure Regrouped (s s' : Table) : Prop where
  vproc : ∀ v, (s'.vproc v).map Vproc.bare = (s.vproc v).map Vproc.bare
  progs : ∀ g y', s'.progs g = some y' → ∃ y, s.progs g = some y ∧ y'.id = y.id ∧ y'.flags = y.flags
  proghash : s'.proghash = s.proghash
  pidnum : s'.pidnum = s.pidnum
  nvproc : s'.nvproc = s.nvproc
  nprogs : s'.nprogs = s.nprogs
  ref : s'.ref = s.ref
  host : s'.host = s.host

variable {s s' s₁ : Table} {b m c : Nat → List Nat} {v u g h p n k pid : Nat} {x y : Vproc} {z w : Progs}
    {d : Option Nat}

theorem Regrouped.trans (h : Regrouped s s₁) (h' : Regrouped s₁ s') : Regrouped s s' := by
  refine ⟨fun v => (h'.vproc v).trans (h.vproc v), fun g y' hy' => ?_, h'.proghash.trans h.proghash,
    h'.pidnum.trans h.pidnum,
    h'.nvproc.trans h.nvproc, h'.nprogs.trans h.nprogs, h'.ref.trans h.ref, h'.host.trans h.host⟩
  obtain ⟨y₁, hy₁, hid₁, hflags₁⟩ := h'.progs g y' hy'
  obtain ⟨y, hy, hid, hflags⟩ := h.progs g y₁ hy₁
  exact ⟨y, hy, hid₁.trans hid, hflags₁.trans hflags⟩

theorem Kept.regrouped (h : Kept s s') : Regrouped s s' := by
  refine ⟨h.vproc, fun g y' hy' => ?_, h.proghash, h.pidnum, h.nvproc, h.nprogs, h.ref, h.host⟩
  have hg := h.progs g
  rw [hy'] at hg
  obtain ⟨y, hy, heq⟩ := map_eq_some_iff.1 hg.symm
  exact ⟨y, hy, (congrArg Progs.id heq).symm, (congrArg Progs.flags heq).symm⟩

theorem Moved.regrouped (h : Moved s s') : Regrouped s s' := by
  refine ⟨fun v => by rw [h.vproc], fun g y' hy' => ?_, h.proghash, h.pidnum, h.nvproc, h.nprogs, h.ref, h.host⟩
  have hg := h.progs g
  rw [hy'] at hg
  obtain ⟨y, hy, heq⟩ := map_eq_some_iff.1 hg.symm
  exact ⟨y, hy, (congrArg Progs.id heq).symm, (congrArg Progs.flags heq).symm⟩

theorem regrouped_free : Regrouped s { s with progs := update s.progs g none } := by
  refine ⟨fun _ => rfl, fun h y' hy' => ?_, rfl, rfl, rfl, rfl, rfl, rfl⟩
  dsimp only at hy'
  rw [update_apply] at hy'
  split at hy'
  · cases hy'
  · exact ⟨y', hy', rfl, rfl⟩

theorem Regrouped.get (h : Regrouped s s') (hv : s.vproc v = some x) : ∃ x', s'.vproc v = some x' ∧
    x'.bare = x.bare := by
  have heq := h.vproc v
  rw [hv] at heq
  exact map_eq_some_iff.1 heq

theorem Regrouped.samePids (h : Regrouped s s') : SamePids s s' := by
  refine ⟨fun v => ?_, fun v => ?_, h.proghash, h.pidnum, h.nvproc⟩
  · have hv := congrArg (Option.map Vproc.pid) (h.vproc v)
    rwa [Option.map_map, Option.map_map] at hv
  · have hv := congrArg (Option.bind · Vproc.pidlink) (h.vproc v)
    rw [Option.bind_map, Option.bind_map] at hv
    exact hv

theorem Kept.forest (h : Kept s s') (hf : Forest s c d) : Forest s' c d := by
  have hview : ∀ {α : Type} (f : Progs → Option α), (∀ y, f y.bare = f y) → ∀ g, (s'.progs g).bind f =
    (s.progs g).bind f := by
    intro α f hf g
    have hg := congrArg (Option.bind · f) (h.progs g)
    simpa [bind_map, comp_def, hf] using hg
  have hcells : gcells s' = gcells s := by
    funext l
    cases l with
    | child g => exact hview Progs.child (fun _ => rfl) g
    | sib g => exact hview Progs.sib (fun _ => rfl) g
  have hparent : ∀ k, parent s' k = parent s k := hview Progs.parent fun _ => rfl
  exact ⟨fun g hg => h.nprogs ▸ hf.lt g ((not_congr h.progs_none).1 hg),
    fun g hg => hcells ▸ hf.chain g ((not_congr h.progs_none).1 hg), fun g k => (hf.mem g k).trans (by rw [hparent]),
    fun k g hk => (hf.up k g ((hparent k).symm.trans hk)).imp_right (not_congr h.progs_none).2⟩

theorem Moved.members (h : Moved s s') (hm : Members s m) : Members s' m := by
  have hview : ∀ {α : Type} (f : Progs → Option α), (∀ y, f y.own = f y) → ∀ g, (s'.progs g).bind f =
    (s.progs g).bind f := by
    intro α f hf g
    have hg := congrArg (Option.bind · f) (h.progs g)
    simpa [bind_map, comp_def, hf] using hg
  have hnext : next s' = next s := by
    funext v
    unfold next
    rw [h.vproc]
  have hprev : prev s' = prev s := by
    funext v
    unfold prev
    rw [h.vproc]
  have hgroup : ∀ v, group s' v = group s v := fun v => by
    unfold group
    rw [h.vproc]
  have hlive : ∀ g, s'.progs g ≠ none ↔ s.progs g ≠ none := fun g => not_congr h.progs_none
  refine ⟨fun g hg => ?_, fun g hg => ?_, fun g hg => ?_, hm.nodup, fun g v => ?_, fun v g hg => ?_, fun v hv => ?_⟩
  · rw [hnext, hprev]
    exact hm.links g ((hlive g).1 hg)
  · exact (hview Progs.head (fun _ => rfl) g).trans (hm.head g ((hlive g).1 hg))
  · exact (hview Progs.tail (fun _ => rfl) g).trans (hm.tail g ((hlive g).1 hg))
  · rw [hm.mem, hgroup]
  · exact (hlive g).2 (hm.live v g ((hgroup v).symm.trans hg))
  · rw [hnext, hprev]
    exact hm.loose v ((hgroup v).symm.trans hv)

theorem Members.free (hm : Members s m) (hg : m g = []) :
    Members { s with progs := update s.progs g none } m := by
  have hlive : ∀ {a}, update s.progs g none a ≠ none → a ≠ g ∧ s.progs a ≠ none := fun {a} ha => by
    rw [update_apply] at ha
    split at ha
    · exact absurd rfl ha
    · next hag => exact ⟨hag, ha⟩
  refine ⟨fun a ha => hm.links a (hlive ha).2, fun a ha => ?_, fun a ha => ?_, hm.nodup, hm.mem, fun v a hv => ?_,
    hm.loose⟩
  · rw [← hm.head a (hlive ha).2]
    simp [Vm.head, (hlive ha).1]
  · rw [← hm.tail a (hlive ha).2]
    simp [Vm.tail, (hlive ha).1]
  have hag : a ≠ g := by
    rintro rfl
    have hmem := (hm.mem a v).2 hv
    rw [hg] at hmem
    cases hmem
  dsimp only
  rw [update_of_ne hag]
  exact hm.live v a hv

/-! ### A process leaves its group -/

theorem delgrp_spec (hm : Members s m) (hf : Forest s c none) (hfull : Full s) (hp : s.vproc p = some x) :
    ∃ pg s' m' c', delgrp p s = some (pg, s') ∧ Members s' m' ∧ Forest s' c' none ∧ Full s' ∧ Regrouped s s' ∧
      group s' p = none ∧ (∀ v, v ≠ p → group s' v = group s v) ∧ ∀ h, pg = some h → s'.progs h ≠ none := by
  unfold delgrp
  simp only [hp, bind_eq_bind, bind_some]
  have hgx : group s p = x.group := by simp [group, hp]
  cases hg : x.group with
  | none => exact ⟨none, s, m, c, rfl, hm, hf, hfull, (Kept.refl s).regrouped, hgx.trans hg, fun _ _ => rfl,
    fun h hh => by cases hh⟩
  | some g =>
    obtain ⟨s₁, hs₁, hk₁, hm₁, hgp₁, hgo₁⟩ := leave_spec hm hp hg
    have hf₁ := hk₁.forest hf
    have hlive₁ := (not_congr hk₁.progs_none).2 (hm.live p g (hgx.trans hg))
    obtain ⟨y, hy⟩ := ne_none_iff_exists'.1 hlive₁
    have hhead := hm₁.head g hlive₁
    rw [update_self] at hhead
    -- the other groups have the members they had
    have hfull₁ : ∀ h, h ≠ g → s₁.progs h ≠ none → head s₁ h ≠ none := fun h hhg hh => by
      have hh₀ := (not_congr hk₁.progs_none).1 hh
      rw [hm₁.head h hh, update_of_ne hhg, ← hm.head h hh₀]
      exact hfull h hh₀
    have hyhead : head s₁ g = y.head := by simp [head, hy]
    dsimp only
    simp only [hs₁, bind_some, hy]
    by_cases hempty : y.head = none
    · rw [if_pos hempty]
      have hnil : (m g).erase p = [] := List.head?_eq_none_iff.1 (hhead.symm.trans (hyhead.trans hempty))
      obtain ⟨s₂, c₂, hs₂, hf₂, hmv₂⟩ := hf₁.dissolve hlive₁
      have hm₂ := (hmv₂.members hm₁).free (g := g) ((update_self g _ m).trans hnil)
      have hr := (hk₁.regrouped.trans hmv₂.regrouped).trans (regrouped_free (g := g))
      have hgroup : ∀ v, group { s₂ with progs := update s₂.progs g none } v = group s₁ v := fun v => by
        unfold group
        rw [hmv₂.vproc]
      have hfull₂ : Full { s₂ with progs := update s₂.progs g none } := fun h hh => by
        dsimp only at hh
        rw [update_apply] at hh
        split at hh
        · exact absurd rfl hh
        next hhg =>
        have hh₁ := (not_congr hmv₂.progs_none).1 hh
        have hlive₂ : ({ s₂ with progs := update s₂.progs g none } : Table).progs h ≠ none := by
          dsimp only
          rwa [update_of_ne hhg]
        rw [hm₂.head h hlive₂, ← hm₁.head h hh₁]
        exact hfull₁ h hhg hh₁
      unfold moveUp
      simp only [hs₂, bind_eq_bind, bind_some]
      have hgp₂ := (hgroup p).trans hgp₁
      have hgo₂ : ∀ v, v ≠ p → group { s₂ with progs := update s₂.progs g none } v = group s v := fun v hv =>
        (hgroup v).trans (hgo₁ v hv)
      cases hpar : parent s₁ g with
      | none => exact ⟨none, _, _, c₂, rfl, hm₂, hf₂, hfull₂, hr, hgp₂, hgo₂, fun h hh => by cases hh⟩
      | some h =>
        obtain ⟨hlt, hh₁⟩ := hf₁.up g h hpar
        have hlive₂ : update s₂.progs g none h ≠ none := by
          rw [update_of_ne hlt.ne]
          exact (not_congr hmv₂.progs_none).2 hh₁
        obtain ⟨w, hw⟩ := ne_none_iff_exists'.1 hlive₂
        have hwhead : w.head ≠ none := by
          have hne := hfull₂ h hlive₂
          unfold head at hne
          dsimp only at hne
          rwa [hw] at hne
        dsimp only
        simp only [hw, bind_some, if_neg hwhead]
        exact ⟨some h, _, _, c₂, rfl, hm₂, hf₂, hfull₂, hr, hgp₂, hgo₂, fun k hk => by cases hk; exact hlive₂⟩
    · rw [if_neg hempty]
      refine ⟨some g, s₁, _, c, rfl, hm₁, hf₁, fun h hh => ?_, hk₁.regrouped, hgp₁, hgo₁, fun h hh => ?_⟩
      · by_cases hhg : h = g
        · rw [hhg, hyhead]
          exact hempty
        · exact hfull₁ h hhg hh
      · cases hh
        exact hlive₁

/-! ### A process gets a group -/

/-- The processes are where they were. -/
structure Alike (s s' : Table) : Prop extends SamePids s s' where
  group : ∀ v, group s' v = group s v
  next : ∀ v, next s' v = next s v
  prev : ∀ v, prev s' v = prev s v
  progs : s'.progs = s.progs
  nprogs : s'.nprogs = s.nprogs

theorem Members.congr (hm : Members s m) (hgroup : ∀ v, Vm.group s' v = Vm.group s v)
    (hnext : ∀ v, Vm.next s' v = Vm.next s v)
    (hprev : ∀ v, Vm.prev s' v = Vm.prev s v) (hprogs : s'.progs = s.progs) : Members s' m := by
  have hhead : ∀ g, Vm.head s' g = Vm.head s g := fun g => by unfold Vm.head; rw [hprogs]
  have htail : ∀ g, Vm.tail s' g = Vm.tail s g := fun g => by unfold Vm.tail; rw [hprogs]
  refine ⟨fun g hg => ?_, fun g hg => ?_, fun g hg => ?_, hm.nodup, fun g v => ?_, fun v g hg => ?_, fun v hv => ?_⟩
  · rw [show Vm.next s' = Vm.next s from funext hnext, show Vm.prev s' = Vm.prev s from funext hprev]
    exact hm.links g (hprogs ▸ hg)
  · rw [hhead]
    exact hm.head g (hprogs ▸ hg)
  · rw [htail]
    exact hm.tail g (hprogs ▸ hg)
  · rw [hgroup]
    exact hm.mem g v
  · rw [hprogs]
    exact hm.live v g ((hgroup v).symm.trans hg)
  · rw [hnext, hprev]
    exact hm.loose v ((hgroup v).symm.trans hv)

theorem Forest.of_progs (hf : Forest s c d) (hprogs : s'.progs = s.progs) (hn : s'.nprogs = s.nprogs) :
    Forest s' c d := by
  have hcells : gcells s' = gcells s := by
    funext l
    cases l <;> simp only [gcells, hprogs]
  have hparent : ∀ k, parent s' k = parent s k := fun k => by unfold parent; rw [hprogs]
  refine ⟨fun g hg => ?_, fun g hg => ?_, fun g k => ?_, fun k g hk => ?_⟩
  · rw [hn]
    exact hf.lt g (hprogs ▸ hg)
  · rw [hcells]
    exact hf.chain g (hprogs ▸ hg)
  · rw [hparent]
    exact hf.mem g k
  · rw [hprogs]
    exact hf.up k g ((hparent k).symm.trans hk)

theorem Full.of_progs (h : Full s) (hprogs : s'.progs = s.progs) : Full s' := by
  intro g hg
  unfold head
  rw [hprogs]
  exact h g (hprogs ▸ hg)

theorem Alike.core (h : Alike s s') (hc : Core s b m c) : Core s' b m c :=
  ⟨h.toSamePids.pids hc.pids, hc.members.congr h.group h.next h.prev h.progs, hc.forest.of_progs h.progs h.nprogs,
    hc.full.of_progs h.progs⟩

theorem alike_setv {f : Vproc → Vproc} (hv : s.vproc v = some x)
    (hf : (f x).pid = x.pid ∧ (f x).pidlink = x.pidlink ∧ (f x).group = x.group ∧ (f x).grpnext = x.grpnext ∧
    (f x).grpprev = x.grpprev) :
    Alike s { s with vproc := update s.vproc v (some (f x)) } := by
  obtain ⟨hpid, hlink, hgroup, hnext, hprev⟩ := hf
  refine ⟨⟨fun u => ?_, fun u => ?_, rfl, rfl, rfl⟩, fun u => ?_, fun u => ?_, fun u => ?_, rfl, rfl⟩ <;>
    by_cases hu : u = v
  · subst hu
    simp [hv, hpid]
  · simp [hu]
  · subst hu
    simp [hv, hlink]
  · simp [hu]
  · subst hu
    simp [group, hv, hgroup]
  · simp [group, hu]
  · subst hu
    simp [next, hv, hnext]
  · simp [next, hu]
  · subst hu
    simp [prev, hv, hprev]
  · simp [prev, hu]

theorem single_spec (i : Nat) (flags : Flags) (hm : Members s m) (hf : Forest s c none) (hfull : Full s)
    (hp : s.vproc p = some x)
    (hg : group s p = none) :
    ∃ s', ({ s with
          progs := update s.progs s.nprogs (some { id := i, flags, head := some p, tail := some p })
          nprogs := s.nprogs + 1 } : Table).setv p (fun x => { x with group := some s.nprogs }) = some s' ∧
      Members s' (update m s.nprogs [p]) ∧ Forest s' c none ∧ Full s' ∧ SamePids s s' ∧
        s'.nprogs = s.nprogs + 1 ∧
      s'.progs s.nprogs ≠ none ∧ parent s' s.nprogs = none ∧ group s' p = some s.nprogs ∧
        (∀ v, v ≠ p → group s' v = group s v) ∧
      (∀ h, h ≠ s.nprogs → s'.progs h = s.progs h) ∧ s'.ref = s.ref ∧ s'.host = s.host := by
  have hfresh : s.progs s.nprogs = none := by
    by_contra hne
    exact lt_irrefl _ (hf.lt _ hne)
  have hnobody : ∀ v, group s v ≠ some s.nprogs := fun v hv => hm.live v _ hv hfresh
  have hpx : x.group = none := by simpa [group, hp] using hg
  obtain ⟨hprev, hnext⟩ := hm.loose p hg
  refine ⟨_, setv_eq hp, ?_⟩
  -- what can be seen of the new state
  set s' : Table := { s with
    progs := update s.progs s.nprogs (some { id := i, flags, head := some p, tail := some p })
    nprogs := s.nprogs + 1
    vproc := update s.vproc p (some { x with group := some s.nprogs }) } with hs'
  have hold : ∀ h, h ≠ s.nprogs → s'.progs h = s.progs h := fun h hh => update_of_ne hh _ _
  have hnew : s'.progs s.nprogs = some { id := i, flags, head := some p, tail := some p } := update_self _ _ _
  have hgroup : ∀ v, group s' v = if v = p then some s.nprogs else group s v := fun v => by
    by_cases hv : v = p
    · simp [group, hs', hv]
    · simp [group, hs', hv]
  have hNext : next s' = next s := funext fun v => by
    by_cases hv : v = p
    · subst hv
      simp [next, hs', hp]
    · simp [next, hs', hv]
  have hPrev : prev s' = prev s := funext fun v => by
    by_cases hv : v = p
    · subst hv
      simp [prev, hs', hp]
    · simp [prev, hs', hv]
  have hlive : ∀ h, h ≠ s.nprogs → s'.progs h ≠ none → s.progs h ≠ none := fun h hh hne => hold h hh ▸ hne
  have hpnot : ∀ h, p ∉ m h := fun h hmem => absurd (hg.symm.trans ((hm.mem h p).1 hmem))
    (some_ne_none h ∘ Eq.symm)
  have hparent : ∀ k, parent s' k = parent s k := fun k => by
    unfold parent
    by_cases hk : k = s.nprogs
    · rw [hk, hnew, hfresh]
      rfl
    · rw [hold k hk]
  refine ⟨⟨fun h hh => ?_, fun h hh => ?_, fun h hh => ?_, fun h => ?_, fun h v => ?_, fun v h hv => ?_,
    fun v hv => ?_⟩,
    ⟨fun h hh => ?_, fun h hh => ?_, fun h k => ?_, fun k h hk => ?_⟩, fun h hh => ?_, ⟨fun v => ?_, fun v => ?_,
      rfl, rfl, rfl⟩, rfl,
    hnew ▸ some_ne_none _, ?_, (hgroup p).trans (if_pos rfl), fun v hv => (hgroup v).trans (if_neg hv), hold,
      rfl, rfl⟩
  · rw [hNext, hPrev, update_apply]
    split
    · exact ⟨hprev, hnext, trivial⟩
    · next hh' => exact hm.links h (hlive h hh' hh)
  · by_cases hh' : h = s.nprogs
    · unfold head
      rw [hh', hnew, update_self]
      rfl
    · rw [update_of_ne hh', ← hm.head h (hlive h hh' hh)]
      unfold head
      rw [hold h hh']
  · by_cases hh' : h = s.nprogs
    · unfold tail
      rw [hh', hnew, update_self]
      rfl
    · rw [update_of_ne hh', ← hm.tail h (hlive h hh' hh)]
      unfold tail
      rw [hold h hh']
  · rw [update_apply]
    split
    · exact List.nodup_singleton p
    · exact hm.nodup h
  · rw [hgroup, update_apply]
    by_cases hvp : v = p
    · subst hvp
      rw [if_pos rfl]
      split
      · next hh' => simp [hh']
      · next hh' => simp [hpnot h, Ne.symm hh']
    · rw [if_neg hvp]
      split
      · next hh' => simp [hvp, hh', hnobody v]
      · exact hm.mem h v
  · rw [hgroup] at hv
    split at hv
    · cases hv
      exact hnew ▸ some_ne_none _
    · have hne : h ≠ s.nprogs := fun heq => hnobody v (heq ▸ hv)
      rw [hold h hne]
      exact hm.live v h hv
  · rw [hgroup] at hv
    split at hv
    · cases hv
    · rw [hNext, hPrev]
      exact hm.loose v hv
  · by_cases hh' : h = s.nprogs
    · rw [hh']
      exact Nat.lt_succ_self _
    · exact (hf.lt h (hlive h hh' hh)).trans (Nat.lt_succ_self _)
  · have hkids : ∀ k ∈ c h, k ≠ s.nprogs := fun k hk heq => live_of_parent ((hf.mem h k).1 hk).2 (heq ▸ hfresh)
    by_cases hh' : h = s.nprogs
    · have hnil : c h = [] := List.eq_nil_iff_forall_not_mem.2 fun k hk => by
        have hpk := (hf.mem h k).1 hk
        exact (hf.up k h hpk.2).2 (hh' ▸ hfresh)
      rw [hnil]
      show (s'.progs h).bind Progs.child = none
      rw [hh', hnew]
      rfl
    · refine (hf.chain h (hlive h hh' hh)).congr ?_ fun k hk => ?_
      · simp only [gcells, hold h hh']
      · simp only [gcells, hold k (hkids k hk)]
  · rw [hparent]
    exact hf.mem h k
  · rw [hparent] at hk
    obtain ⟨hlt, hne⟩ := hf.up k h hk
    refine ⟨hlt, ?_⟩
    rw [hold h fun heq => hne (heq ▸ hfresh)]
    exact hne
  · unfold head
    by_cases hh' : h = s.nprogs
    · rw [hh', hnew]
      exact some_ne_none p
    · rw [hold h hh']
      exact hfull h (hlive h hh' hh)
  · by_cases hv : v = p
    · simp [hs', hv, hp]
    · simp [hs', hv]
  · by_cases hv : v = p
    · simp [hs', hv, hp]
    · simp [hs', hv]
  · rw [hparent]
    unfold parent
    rw [hfresh]
    rfl

theorem leads_spec (hm : Members s m) (hp : s.vproc p = some x) :
    ∃ r, leads p s = some r ∧ (r = true → group s p ≠ none) := by
  unfold leads
  simp only [hp, bind_eq_bind, bind_some]
  have hgx : group s p = x.group := by simp [group, hp]
  cases hg : x.group with
  | none => exact ⟨false, rfl, fun h => absurd h Bool.false_ne_true⟩
  | some g =>
    obtain ⟨y, hy⟩ := ne_none_iff_exists'.1 (hm.live p g (hgx.trans hg))
    refine ⟨y.id == x.pid, by simp only [hy, bind_some], fun _ => ?_⟩
    rw [hgx, hg]
    exact some_ne_none g

theorem Members.groupFlag (hm : Members s m) (hp : s.vproc p = some x) (f : Flags → Bool) :
    ∃ r, Vm.groupFlag f x.group s = some r := by
  unfold Vm.groupFlag
  cases hg : x.group with
  | none => exact ⟨false, rfl⟩
  | some g =>
    obtain ⟨y, hy⟩ := ne_none_iff_exists'.1 (hm.live p g (by simp [Vm.group, hp, hg]))
    exact ⟨f y.flags, congrArg (Option.map _) hy⟩

/-- What a process that gets a group leaves as it was. -/
structure Joined (p : Nat) (s s' : Table) : Prop where
  pids : SamePids s s'
  group : ∀ v, v ≠ p → group s' v = group s v
  ref : s'.ref = s.ref
  host : s'.host = s.host

theorem newgrp_spec (mem : Bool) (hc : Core s b m c) (hp : s.vproc p = some x) :
    ∃ r s' m' c', newgrp p mem s = some (r, s') ∧ Core s' b m' c' ∧ Joined p s s' ∧
      (r = .ok () ∧ group s' p ≠ none ∨ r = .error Enomem ∧ s' = s ∧ mem = false) := by
  obtain ⟨lead, hlead, hgroup⟩ := leads_spec hc.members hp
  unfold newgrp
  simp only [hlead, bind_eq_bind, bind_some]
  have hself : Joined p s s := ⟨⟨fun _ => rfl, fun _ => rfl, rfl, rfl, rfl⟩, fun _ _ => rfl, rfl, rfl⟩
  cases lead with
  | true => exact ⟨.ok (), s, m, c, rfl, hc, hself, .inl ⟨rfl, hgroup rfl⟩⟩
  | false =>
    rw [if_neg Bool.false_ne_true]
    cases mem with
    | false => exact ⟨.error Enomem, s, m, c, rfl, hc, hself, .inr ⟨rfl, rfl, rfl⟩⟩
    | true =>
      rw [if_neg (by simp)]
      have halike := alike_setv (f :=
        fun x => { x with flags := { x.flags with propagate := false, notifyleader := false } })
        hp ⟨rfl, rfl, rfl, rfl, rfl⟩
      have hc₁ := halike.core hc
      obtain ⟨priv, hpriv⟩ := hc₁.members.groupFlag (update_self p _ s.vproc) Flags.privatemem
      simp only [hp, bind_some, setv_eq hp]
      dsimp only at hpriv
      rw [hpriv, bind_some]
      obtain ⟨pg, s₂, m₂, c₂, hs₂, hm₂, hf₂, hfull₂, hr₂, hgp₂, hgo₂, hpg₂⟩ :=
        delgrp_spec hc₁.members hc₁.forest hc₁.full (update_self p _ s.vproc)
      obtain ⟨x₂, hx₂, -⟩ := hr₂.get (update_self p _ s.vproc)
      obtain ⟨s₃, hs₃, hm₃, hf₃, hfull₃, hpids₃, hn₃, hlive₃, hpar₃, hgp₃, hgo₃, hold₃, href₃, hhost₃⟩ :=
        single_spec x.pid { privatemem := priv } hm₂ hf₂ hfull₂ hx₂ hgp₂
      rw [hs₂, bind_some]
      dsimp only
      rw [hs₃, bind_some]
      have hlt : ∀ h, pg = some h → h < s₂.nprogs := fun h hh => hf₂.lt h (hpg₂ h hh)
      obtain ⟨s₄, hs₄, hp₄, hmv₄, hc₄⟩ := putSub_spec (p := pg) hlive₃ fun h hh => by
        rw [hold₃ h (hlt h hh).ne]
        exact hpg₂ h hh
      obtain ⟨s₅, hs₅, hc₅, hp₅, hmv₅⟩ := setParent_spec (p := pg) ((not_congr hmv₄.progs_none).2 hlive₃)
      rw [hs₄, bind_some, hs₅, bind_some]
      have hmv := hmv₄.trans hmv₅
      have hm₅ := hmv.members hm₃
      have hgroup₅ : ∀ v, group s₅ v = group s₃ v := fun v => by
        unfold group
        rw [hmv.vproc]
      have hnot : ∀ a, s₂.nprogs ∉ c₂ a := fun a hmem => by
        have hpar := ((hf₃.mem a _).1 hmem).2
        rw [hpar₃] at hpar
        cases hpar
      have hparent : ∀ q, parent s₅ q = if q = s₂.nprogs then pg else parent s₃ q := fun q => by rw [hp₅, hp₄]
      have hlive₅ : ∀ a, s₅.progs a ≠ none ↔ s₃.progs a ≠ none := fun a => not_congr hmv.progs_none
      have hpids := ((halike.toSamePids.trans hr₂.samePids).trans hpids₃).trans hmv.regrouped.samePids
      refine ⟨.ok (), s₅, _, fun a => if some a = pg then s₂.nprogs :: c₂ a else c₂ a, rfl,
        ⟨hpids.pids hc.pids, hm₅, ⟨fun a ha => ?_, fun a ha => ?_, fun a q => ?_, fun q a hq => ?_⟩, fun a ha => ?_⟩,
        ⟨hpids, fun v hv => ?_, ?_, ?_⟩, .inl ⟨rfl, ?_⟩⟩
      · rw [hmv.nprogs]
        exact hf₃.lt a ((hlive₅ a).1 ha)
      · rw [hc₅]
        exact hc₄ a _ (hf₃.chain a ((hlive₅ a).1 ha)) (hnot a)
      · rw [hparent]
        by_cases hq : q = s₂.nprogs
        · rw [if_pos hq, hq]
          split
          · next ha => simp [← ha]
          · next ha => simp [hnot a, Ne.symm ha]
        · rw [if_neg hq, ← hf₃.mem a q]
          split
          · rw [List.mem_cons, or_iff_right hq]
          · rfl
      · rw [hparent] at hq
        refine And.imp_right (hlive₅ a).2 ?_
        split at hq
        · next hqn =>
          refine ⟨hqn ▸ hlt a hq, ?_⟩
          rw [hold₃ a (hlt a hq).ne]
          exact hpg₂ a hq
        · exact hf₃.up q a hq
      · rw [hm₅.head a ha, ← hm₃.head a ((hlive₅ a).1 ha)]
        exact hfull₃ a ((hlive₅ a).1 ha)
      · rw [hgroup₅, hgo₃ v hv, hgo₂ v hv, halike.group]
      · exact hmv.ref.trans (href₃.trans hr₂.ref)
      · exact hmv.host.trans (hhost₃.trans hr₂.host)
      · rw [hgroup₅, hgp₃]
        exact some_ne_none _


end Node9.Vm
