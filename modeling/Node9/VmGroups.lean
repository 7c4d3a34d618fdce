import Node9.Vm
import Node9.Lib.Deque

/-!
# Members of process groups

The members of a group are linked in both directions, and have it as their group.
-/

namespace Node9.Vm
open Linked Deque Function Option
open List hiding Chain

def group (s : Table) (v : Nat) : Option Nat := (s.vproc v).bind Vproc.group

def next (s : Table) (v : Nat) : Option Nat := (s.vproc v).bind Vproc.grpnext

def prev (s : Table) (v : Nat) : Option Nat := (s.vproc v).bind Vproc.grpprev

def head (s : Table) (g : Nat) : Option Nat := (s.progs g).bind Progs.head

def tail (s : Table) (g : Nat) : Option Nat := (s.progs g).bind Progs.tail

structure Members (s : Table) (m : Nat → List Nat) : Prop where
  links : ∀ g, s.progs g ≠ none → Links (next s) (prev s) none (m g)
  head : ∀ g, s.progs g ≠ none → head s g = (m g).head?
  tail : ∀ g, s.progs g ≠ none → tail s g = (m g).getLast?
  nodup : ∀ g, (m g).Nodup
  mem : ∀ g v, v ∈ m g ↔ group s v = some g
  live : ∀ v g, group s v = some g → s.progs g ≠ none
  loose : ∀ v, group s v = none → prev s v = none ∧ next s v = none

/-- A process but for its place in a group. -/
def Vproc.bare (x : Vproc) : Vproc := { x with group := none, grpprev := none, grpnext := none }

def Progs.bare (y : Progs) : Progs := { y with head := none, tail := none }

/-- Only members of groups may have changed. -/
structure Kept (s s' : Table) : Prop where
  vproc : ∀ v, (s'.vproc v).map Vproc.bare = (s.vproc v).map Vproc.bare
  progs : ∀ g, (s'.progs g).map Progs.bare = (s.progs g).map Progs.bare
  proghash : s'.proghash = s.proghash
  pidnum : s'.pidnum = s.pidnum
  nvproc : s'.nvproc = s.nvproc
  nprogs : s'.nprogs = s.nprogs
  ref : s'.ref = s.ref
  host : s'.host = s.host

variable {s s' s₁ : Table} {m : Nat → List Nat} {v u g h p n : Nat} {x y : Vproc} {z w : Progs} {f : Vproc → Vproc}
    {k : Progs → Progs}

theorem Kept.refl (s : Table) : Kept s s := ⟨fun _ => rfl, fun _ => rfl, rfl, rfl, rfl, rfl, rfl, rfl⟩

theorem Kept.trans (h : Kept s s₁) (h' : Kept s₁ s') : Kept s s' :=
  ⟨fun v => (h'.vproc v).trans (h.vproc v), fun g => (h'.progs g).trans (h.progs g), h'.proghash.trans h.proghash,
    h'.pidnum.trans h.pidnum, h'.nvproc.trans h.nvproc, h'.nprogs.trans h.nprogs, h'.ref.trans h.ref,
      h'.host.trans h.host⟩

theorem Kept.vproc_none (h : Kept s s') : s'.vproc v = none ↔ s.vproc v = none := by
  rw [← map_eq_none_iff (f := Vproc.bare), h.vproc, map_eq_none_iff]

theorem Kept.progs_none (h : Kept s s') : s'.progs g = none ↔ s.progs g = none := by
  rw [← map_eq_none_iff (f := Progs.bare), h.progs, map_eq_none_iff]

theorem kept_setv (hv : s.vproc v = some x) (hf : (f x).bare = x.bare) :
    Kept s { s with vproc := update s.vproc v (some (f x)) } := by
  refine ⟨fun u => ?_, fun _ => rfl, rfl, rfl, rfl, rfl, rfl, rfl⟩
  by_cases hu : u = v
  · subst hu
    simp [hv, hf]
  · simp [update_of_ne hu]

theorem kept_setg (hg : s.progs g = some z) (hk : (k z).bare = z.bare) :
    Kept s { s with progs := update s.progs g (some (k z)) } := by
  refine ⟨fun _ => rfl, fun h => ?_, rfl, rfl, rfl, rfl, rfl, rfl⟩
  by_cases hh : h = g
  · subst hh
    simp [hg, hk]
  · simp [update_of_ne hh]

theorem setNext_spec {q r : Option Nat} (hq : ∀ u, q = some u → s.vproc u ≠ none) (hg : s.progs g ≠ none) :
    ∃ s', setNext g q r s = some s' ∧ Kept s s' ∧
      (∀ v, next s' v = if q = some v then r else next s v) ∧ (∀ v, prev s' v = prev s v) ∧
      (∀ v, group s' v = group s v) ∧ (∀ h, head s' h = if h = g ∧ q = none then r else head s h) ∧
      ∀ h, tail s' h = tail s h := by
  cases q with
  | none =>
    obtain ⟨z, hz⟩ := ne_none_iff_exists'.1 hg
    refine ⟨_, setg_eq hz, kept_setg (k := fun y => { y with head := r }) hz rfl,
      fun _ => (if_neg (by simp)).symm, fun _ => rfl, fun _ => rfl, fun h => ?_, fun h => ?_⟩
    · by_cases hh : h = g
      · subst hh
        simp [head]
      · simp [head, hh]
    · by_cases hh : h = g
      · subst hh
        simp [tail, hz]
      · simp [tail, update_of_ne hh]
  | some u =>
    obtain ⟨x, hx⟩ := ne_none_iff_exists'.1 (hq u rfl)
    refine ⟨_, setv_eq hx, kept_setv (f := fun y => { y with grpnext := r }) hx rfl, fun v => ?_, fun v => ?_,
      fun v => ?_, fun _ => (if_neg (by simp)).symm, fun _ => rfl⟩ <;>
      by_cases hv : v = u
    · subst hv
      simp [next]
    · simp [next, hv, Ne.symm hv]
    · subst hv
      simp [prev, hx]
    · simp [prev, hv]
    · subst hv
      simp [group, hx]
    · simp [group, hv]

theorem setPrev_spec {q r : Option Nat} (hr : ∀ u, r = some u → s.vproc u ≠ none) (hg : s.progs g ≠ none) :
    ∃ s', setPrev g q r s = some s' ∧ Kept s s' ∧
      (∀ v, next s' v = next s v) ∧ (∀ v, prev s' v = if r = some v then q else prev s v) ∧
      (∀ v, group s' v = group s v) ∧ (∀ h, head s' h = head s h) ∧
      ∀ h, tail s' h = if h = g ∧ r = none then q else tail s h := by
  cases r with
  | none =>
    obtain ⟨z, hz⟩ := ne_none_iff_exists'.1 hg
    refine ⟨_, setg_eq hz, kept_setg (k := fun y => { y with tail := q }) hz rfl, fun _ => rfl,
      fun _ => (if_neg (by simp)).symm,
      fun _ => rfl, fun h => ?_, fun h => ?_⟩
    · by_cases hh : h = g
      · subst hh
        simp [head, hz]
      · simp [head, update_of_ne hh]
    · by_cases hh : h = g
      · subst hh
        simp [tail]
      · simp [tail, hh]
  | some u =>
    obtain ⟨x, hx⟩ := ne_none_iff_exists'.1 (hr u rfl)
    refine ⟨_, setv_eq hx, kept_setv (f := fun y => { y with grpprev := q }) hx rfl, fun v => ?_, fun v => ?_,
      fun v => ?_,
      fun _ => rfl, fun _ => (if_neg (by simp)).symm⟩ <;>
      by_cases hv : v = u
    · subst hv
      simp [next, hx]
    · simp [next, hv]
    · subst hv
      simp [prev]
    · simp [prev, hv, Ne.symm hv]
    · subst hv
      simp [group, hx]
    · simp [group, hv]

theorem setGroup_spec {a b c : Option Nat} (hp : s.vproc p ≠ none) :
    ∃ s', (s.setv p fun y => { y with grpprev := b, grpnext := c, group := a }) = some s' ∧ Kept s s' ∧
      (∀ v, next s' v = if v = p then c else next s v) ∧ (∀ v, prev s' v = if v = p then b else prev s v) ∧
      (∀ v, group s' v = if v = p then a else group s v) ∧ (∀ h, head s' h = head s h) ∧ ∀ h, tail s' h = tail s h := by
  obtain ⟨x, hx⟩ := ne_none_iff_exists'.1 hp
  refine ⟨_, setv_eq hx, kept_setv (f := fun y => { y with grpprev := b, grpnext := c, group := a }) hx rfl,
    fun v => ?_, fun v => ?_,
    fun v => ?_, fun _ => rfl, fun _ => rfl⟩ <;> by_cases hv : v = p <;>
      simp [next, prev, group, hv]

theorem live_of_group (h : group s v = some g) : s.vproc v ≠ none := by
  unfold group at h
  intro hv
  rw [hv] at h
  cases h

theorem erase_eq {xs ys : List Nat} (hnd : (xs ++ p :: ys).Nodup) : (xs ++ p :: ys).erase p = xs ++ ys := by
  have hp : p ∉ xs := fun hmem => (nodup_append.1 hnd).2.2 p hmem p (by simp) rfl
  rw [erase_append_right _ hp, erase_cons_head]

theorem leave_spec (hm : Members s m) (hp : s.vproc p = some x) (hg : x.group = some g) :
    ∃ s', leave p g s = some s' ∧ Kept s s' ∧ Members s' (update m g ((m g).erase p)) ∧ group s' p = none ∧
      ∀ v, v ≠ p → group s' v = group s v := by
  have hgroup : group s p = some g := by simp [group, hp, hg]
  have hlive := hm.live p g hgroup
  obtain ⟨xs, ys, hxs⟩ := append_of_mem ((hm.mem g p).2 hgroup)
  have hlinks := hm.links g hlive
  have hnd := hm.nodup g
  rw [hxs] at hlinks hnd
  have hrest := erase_eq hnd
  have hpne : ∀ b ∈ xs ++ ys, b ≠ p := fun b hb heq => (hnd.mem_erase_iff.1 (hrest ▸ heq ▸ hb)).1 rfl
  obtain ⟨hprev, hnext⟩ := hlinks.around
  have hpx : prev s p = x.grpprev := by simp [prev, hp]
  have hnx : next s p = x.grpnext := by simp [next, hp]
  rw [or_none, hpx] at hprev
  rw [hnx] at hnext
  have hmem : ∀ b ∈ xs ++ ys, group s b = some g := fun b hb => (hm.mem g b).1 (by
    rw [hxs]
    simp only [mem_append, mem_cons] at hb ⊢
    tauto)
  have hprevMem : ∀ u, x.grpprev = some u → u ∈ xs ++ ys := fun u hu =>
    mem_append_left _ (mem_of_getLast? (hprev ▸ hu))
  have hnextMem : ∀ u, x.grpnext = some u → u ∈ xs ++ ys := fun u hu =>
    mem_append_right _ (mem_of_head? (hnext ▸ hu))
  obtain ⟨s₁, hs₁, hk₁, hn₁, hp₁, hg₁, hh₁, ht₁⟩ :=
    setNext_spec (r := x.grpnext) (fun u hu => live_of_group (hmem u (hprevMem u hu))) hlive
  obtain ⟨s₂, hs₂, hk₂, hn₂, hp₂, hg₂, hh₂, ht₂⟩ := setPrev_spec (q := x.grpprev) (r := x.grpnext) (s := s₁)
    (fun u hu => (not_congr hk₁.vproc_none).2 (live_of_group (hmem u (hnextMem u hu))))
      ((not_congr hk₁.progs_none).2 hlive)
  obtain ⟨s₃, hs₃, hk₃, hn₃, hp₃, hg₃, hh₃, ht₃⟩ := setGroup_spec (a := none) (b := none) (c := none) (p := p) (s := s₂)
    ((not_congr (hk₁.trans hk₂).vproc_none).2 (live_of_group hgroup))
  have hkept := (hk₁.trans hk₂).trans hk₃
  have hNext : ∀ v, v ≠ p → next s₃ v = if x.grpprev = some v then x.grpnext else next s v := fun v hv => by
    rw [hn₃, if_neg hv, hn₂, hn₁]
  have hPrev : ∀ v, v ≠ p → prev s₃ v = if x.grpnext = some v then x.grpprev else prev s v := fun v hv => by
    rw [hp₃, if_neg hv, hp₂, hp₁]
  have hGroup : ∀ v, group s₃ v = if v = p then none else group s v := fun v => by rw [hg₃, hg₂, hg₁]
  refine ⟨s₃, ?_, hkept, ?_, by rw [hGroup, if_pos rfl], fun v hv => by rw [hGroup, if_neg hv]⟩
  · unfold leave
    rw [hp]
    simp only [bind_eq_bind, bind_some, hs₁, hs₂, hs₃]
  refine ⟨fun h hh => ?_, fun h hh => ?_, fun h hh => ?_, fun h => ?_, fun h v => ?_, fun v h hv => ?_,
    fun v hv => ?_⟩
  · by_cases hhg : h = g
    · subst hhg
      rw [update_self, hxs, hrest]
      refine hlinks.erase hnd (fun _ _ => some_ne_none _ ∘ Eq.symm) (fun b hb => ?_) fun b hb => ?_
      · rw [hNext b (hpne b hb), hpx, hnx]
      · rw [hPrev b (hpne b hb), hpx, hnx]
    rw [update_of_ne hhg]
    have hother : ∀ b ∈ m h, b ∉ xs ++ ys ∧ b ≠ p := fun b hb => by
      have hb' := (hm.mem h b).1 hb
      refine ⟨fun hb'' => ?_, ?_⟩
      · exact hhg (Option.some.inj (hb'.symm.trans (hmem b hb'')))
      · rintro rfl
        exact hhg (Option.some.inj (hb'.symm.trans hgroup))
    refine (hm.links h ((not_congr hkept.progs_none).1 hh)).congr fun b hb => ?_
    obtain ⟨hnot, hbp⟩ := hother b hb
    exact ⟨by rw [hNext b hbp, if_neg fun heq => hnot (hprevMem b heq)],
      by rw [hPrev b hbp, if_neg fun heq => hnot (hnextMem b heq)]⟩
  · rw [hh₃, hh₂, hh₁]
    by_cases hhg : h = g
    · subst hhg
      rw [update_self, hxs, hrest]
      cases xs with
      | nil =>
        rw [if_pos ⟨rfl, hprev⟩]
        exact hnext
      | cons a xs =>
        have hne : x.grpprev ≠ none := by
          rw [hprev]
          simp
        rw [if_neg (fun hin => hne hin.2), hm.head h hlive, hxs]
        rfl
    · rw [if_neg (fun hin => hhg hin.1), update_of_ne hhg]
      exact hm.head h ((not_congr hkept.progs_none).1 hh)
  · rw [ht₃, ht₂, ht₁]
    by_cases hhg : h = g
    · subst hhg
      rw [update_self, hxs, hrest]
      cases ys with
      | nil =>
        rw [if_pos ⟨rfl, hnext⟩, append_nil]
        exact hprev
      | cons a ys =>
        have hne : x.grpnext ≠ none := by
          rw [hnext]
          simp
        rw [if_neg (fun hin => hne hin.2), hm.tail h hlive, hxs]
        simp
    · rw [if_neg (fun hin => hhg hin.1), update_of_ne hhg]
      exact hm.tail h ((not_congr hkept.progs_none).1 hh)
  · rw [update_apply]
    split
    · exact (hm.nodup g).erase p
    · exact hm.nodup h
  · rw [hGroup, update_apply]
    by_cases hvp : v = p
    · subst hvp
      rw [if_pos rfl]
      simp only [reduceCtorEq, iff_false]
      split
      · exact (hm.nodup g).not_mem_erase
      · next hhg => exact fun hin => hhg (Option.some.inj (((hm.mem h v).1 hin).symm.trans hgroup))
    · rw [if_neg hvp, ← hm.mem h v]
      split
      · next hhg => rw [mem_erase_of_ne hvp, hhg]
      · rfl
  · rw [hGroup] at hv
    split at hv
    · cases hv
    · exact (not_congr hkept.progs_none).2 (hm.live v h hv)
  · by_cases hvp : v = p
    · subst hvp
      exact ⟨(hp₃ v).trans (if_pos rfl), (hn₃ v).trans (if_pos rfl)⟩
    · rw [hGroup, if_neg hvp] at hv
      rw [hNext v hvp, hPrev v hvp, if_neg, if_neg]
      · exact hm.loose v hv
      · exact fun heq => absurd (hv.symm.trans (hmem v (hprevMem v heq))) (some_ne_none g ∘ Eq.symm)
      · exact fun heq => absurd (hv.symm.trans (hmem v (hnextMem v heq))) (some_ne_none g ∘ Eq.symm)

theorem addgrp_spec (hm : Members s m) (hn : s.vproc n ≠ none) (hg : group s n = none) (hp : s.vproc p = some x)
    (hnp : n ≠ p)
    (hx : x.group = some g) :
    ∃ s', addgrp n p s = some s' ∧ Kept s s' ∧ Members s' (update m g (m g ++ [n])) ∧ group s' n = some g ∧
      ∀ v, v ≠ n → group s' v = group s v := by
  have hlive := hm.live p g (by simp [group, hp, hx])
  obtain ⟨z, hz⟩ := ne_none_iff_exists'.1 hlive
  have hnot : ∀ h, n ∉ m h := fun h hmem => absurd (hg.symm.trans ((hm.mem h n).1 hmem))
    (some_ne_none h ∘ Eq.symm)
  have hhead := hm.head g hlive
  have htail := hm.tail g hlive
  simp only [head, tail, hz, bind_some] at hhead htail
  have hlast : (if z.head = none then none else z.tail) = (m g).getLast? := by
    rw [hhead, htail]
    cases m g <;> simp
  have hmemLast : ∀ u, (m g).getLast? = some u → u ∈ m g := fun u hu => mem_of_getLast? hu
  obtain ⟨s₁, hs₁, hk₁, hn₁, hp₁, hg₁, hh₁, ht₁⟩ := setGroup_spec (a := some g) (b := (m g).getLast?) (c := none) hn
  obtain ⟨s₂, hs₂, hk₂, hn₂, hp₂, hg₂, hh₂, ht₂⟩ := setNext_spec (q := (m g).getLast?) (r := some n) (s := s₁)
    (fun u hu => (not_congr hk₁.vproc_none).2 (live_of_group ((hm.mem g u).1 (hmemLast u hu))))
      ((not_congr hk₁.progs_none).2 hlive)
  obtain ⟨s₃, hs₃, hk₃, hn₃, hp₃, hg₃, hh₃, ht₃⟩ := setPrev_spec (q := some n) (r := none) (s := s₂) (g := g)
    (fun u hu => absurd hu.symm (some_ne_none u)) ((not_congr (hk₁.trans hk₂).progs_none).2 hlive)
  have hkept := (hk₁.trans hk₂).trans hk₃
  have hNext : ∀ v, next s₃ v = if (m g).getLast? = some v then some n else if v = n then none else next s v :=
    fun v => by
    rw [hn₃, hn₂, hn₁]
  have hPrev : ∀ v, prev s₃ v = if v = n then (m g).getLast? else prev s v := fun v => by
    rw [hp₃, if_neg (by simp), hp₂, hp₁]
  have hGroup : ∀ v, group s₃ v = if v = n then some g else group s v := fun v => by rw [hg₃, hg₂, hg₁]
  refine ⟨s₃, ?_, hkept, ?_, by rw [hGroup, if_pos rfl], fun v hv => by rw [hGroup, if_neg hv]⟩
  · have hstore : (if z.head = none then s₁.setg g fun y => { y with head := some n }
        else z.tail.bind fun t => s₁.setv t fun y => { y with grpnext := some n }) = some s₂ := by
      rw [← hs₂, hhead, htail]
      cases m g with
      | nil => rfl
      | cons a xs => rw [if_neg (by simp), List.getLast?_eq_some_getLast (cons_ne_nil a xs)]; rfl
    unfold addgrp
    rw [hp]
    simp only [bind_eq_bind, bind_some, hx, hz, hlast, hs₁, hstore]
    exact hs₃
  refine ⟨fun h hh => ?_, fun h hh => ?_, fun h hh => ?_, fun h => ?_, fun h v => ?_, fun v h hv => ?_,
    fun v hv => ?_⟩
  · have hnn : ∀ k, ∀ b ∈ m k, b ≠ n := fun k b hb heq => hnot k (heq ▸ hb)
    have hold := hm.links h ((not_congr hkept.progs_none).1 hh)
    by_cases hhg : h = g
    · subst hhg
      rw [update_self]
      refine hold.snoc (hm.nodup h) (fun b hb => ?_) (fun b hb => ?_) ?_ ?_
      · rw [hNext, if_neg (hnn h b hb)]
      · rw [hPrev, if_neg (hnn h b hb)]
      · rw [hNext, if_pos rfl, if_neg fun heq => hnot h (hmemLast n heq)]
      · rw [hPrev, if_pos rfl, or_none]
    · rw [update_of_ne hhg]
      refine hold.congr fun b hb => ⟨?_, by rw [hPrev, if_neg (hnn h b hb)]⟩
      have hb' := (hm.mem h b).1 hb
      rw [hNext, if_neg (hnn h b hb), if_neg fun heq => ?_]
      exact hhg (Option.some.inj (hb'.symm.trans ((hm.mem g b).1 (hmemLast b heq))))
  · rw [hh₃, hh₂, hh₁]
    by_cases hhg : h = g
    · subst hhg
      rw [update_self]
      cases hxs : m h with
      | nil => simp
      | cons a xs =>
        rw [if_neg (by simp), hm.head h hlive, hxs]
        rfl
    · rw [if_neg (fun hin => hhg hin.1), update_of_ne hhg]
      exact hm.head h ((not_congr hkept.progs_none).1 hh)
  · rw [ht₃, ht₂, ht₁]
    by_cases hhg : h = g
    · subst hhg
      rw [update_self, if_pos ⟨rfl, rfl⟩, List.getLast?_concat]
    · rw [if_neg (fun hin => hhg hin.1), update_of_ne hhg]
      exact hm.tail h ((not_congr hkept.progs_none).1 hh)
  · rw [update_apply]
    split
    · exact nodup_append.2 ⟨hm.nodup g, nodup_singleton n, fun a ha b hb heq => by
        rw [mem_singleton] at hb
        exact hnot g (hb ▸ heq ▸ ha)⟩
    · exact hm.nodup h
  · rw [hGroup, update_apply]
    by_cases hvn : v = n
    · subst hvn
      rw [if_pos rfl]
      split
      · next hhg => simp [hhg]
      · next hhg => simp [hnot, Ne.symm hhg]
    · rw [if_neg hvn, ← hm.mem h v]
      split
      · next hhg => simp [hhg, hvn]
      · rfl
  · rw [hGroup] at hv
    refine (not_congr hkept.progs_none).2 ?_
    split at hv
    · rw [← Option.some.inj hv]
      exact hlive
    · exact hm.live v h hv
  · rw [hGroup] at hv
    split at hv
    · cases hv
    · next hvn =>
      rw [hNext, hPrev, if_neg hvn, if_neg hvn, if_neg fun heq => ?_]
      · exact hm.loose v hv
      · exact absurd (hv.symm.trans ((hm.mem g v).1 (hmemLast v heq))) (some_ne_none g ∘ Eq.symm)

end Node9.Vm
