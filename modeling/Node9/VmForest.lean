import Node9.Vm

/-!
# The forest of process groups

The subgroups of a group are the groups that have it as their parent, each once.
-/

namespace Node9.Vm
open Linked Function Option
open List hiding Chain

def parent (s : Table) (g : Nat) : Option Nat := (s.progs g).bind Progs.parent

/-- The subgroups of all groups. The group `d` is being taken out of the forest. -/
structure Forest (s : Table) (c : Nat → List Nat) (d : Option Nat) : Prop where
  lt : ∀ g, s.progs g ≠ none → g < s.nprogs
  chain : ∀ g, s.progs g ≠ none → Chain (gcells s) GCell.sib (.child g) (c g)
  mem : ∀ g k, k ∈ c g ↔ some k ≠ d ∧ parent s k = some g
  up : ∀ k g, parent s k = some g → g < k ∧ s.progs g ≠ none

/-- A group but for its place in the forest. -/
def Progs.own (y : Progs) : Progs := { y with parent := none, child := none, sib := none }

/-- Only the forest may have changed. -/
structure Moved (s s' : Table) : Prop where
  vproc : s'.vproc = s.vproc
  progs : ∀ g, (s'.progs g).map Progs.own = (s.progs g).map Progs.own
  proghash : s'.proghash = s.proghash
  pidnum : s'.pidnum = s.pidnum
  nvproc : s'.nvproc = s.nvproc
  nprogs : s'.nprogs = s.nprogs
  ref : s'.ref = s.ref
  host : s'.host = s.host

variable {s s' s₁ : Table} {c : Nat → List Nat} {d p : Option Nat} {g h k n : Nat} {l : GCell} {v : Option Nat}
  {z : Progs} {xs : List Nat}

theorem Moved.refl (s : Table) : Moved s s := ⟨rfl, fun _ => rfl, rfl, rfl, rfl, rfl, rfl, rfl⟩

theorem Moved.trans (h : Moved s s₁) (h' : Moved s₁ s') : Moved s s' :=
  ⟨h'.vproc.trans h.vproc, fun g => (h'.progs g).trans (h.progs g), h'.proghash.trans h.proghash,
    h'.pidnum.trans h.pidnum,
    h'.nvproc.trans h.nvproc, h'.nprogs.trans h.nprogs, h'.ref.trans h.ref, h'.host.trans h.host⟩

theorem Moved.progs_none (h : Moved s s') : s'.progs g = none ↔ s.progs g = none := by
  rw [← map_eq_none_iff (f := Progs.own), h.progs, map_eq_none_iff]

def GCell.owner : GCell → Nat
  | .child g => g
  | .sib g => g

/-- What an update of a group does to the forest, if it leaves the rest of the group as it is. -/
theorem setg_spec {f : Progs → Progs} (hg : s.progs g ≠ none) (hown : ∀ z, (f z).own = z.own) :
    ∃ z s', s.progs g = some z ∧ s.setg g f = some s' ∧ Moved s s' ∧
      (∀ k, gcells s' (.child k) = if k = g then (f z).child else gcells s (.child k)) ∧
      (∀ k, gcells s' (.sib k) = if k = g then (f z).sib else gcells s (.sib k)) ∧
      ∀ k, parent s' k = if k = g then (f z).parent else parent s k := by
  obtain ⟨z, hz⟩ := ne_none_iff_exists'.1 hg
  refine ⟨z, _, hz, setg_eq hz, ⟨rfl, fun k => ?_, rfl, rfl, rfl, rfl, rfl, rfl⟩, fun k => ?_, fun k => ?_, fun k => ?_⟩
  all_goals
    by_cases hk : k = g
    · subst hk
      simp [gcells, parent, hz, hown]
    · simp [gcells, parent, hk]

theorem gstore_spec (hl : s.progs l.owner ≠ none) :
    ∃ s', gstore s l v = some s' ∧ gcells s' = update (gcells s) l v ∧ (∀ k, parent s' k = parent s k) ∧
    Moved s s' := by
  cases l with
  | child g =>
    obtain ⟨z, s', hz, hs', hm, hc, hb, hp⟩ := setg_spec (g := g) (f := fun y => { y with child := v }) hl fun _ => rfl
    refine ⟨s', hs', funext fun l => ?_, fun k => ?_, hm⟩
    · cases l <;> grind [gcells]
    · grind [parent]
  | sib g =>
    obtain ⟨z, s', hz, hs', hm, hc, hb, hp⟩ := setg_spec (g := g) (f := fun y => { y with sib := v }) hl fun _ => rfl
    refine ⟨s', hs', funext fun l => ?_, fun k => ?_, hm⟩
    · cases l <;> grind [gcells]
    · grind [parent]

theorem setParent_spec (hg : s.progs g ≠ none) :
    ∃ s', (s.setg g fun z => { z with parent := p }) = some s' ∧ gcells s' = gcells s ∧
      (∀ k, parent s' k = if k = g then p else parent s k) ∧ Moved s s' := by
  obtain ⟨z, s', hz, hs', hm, hc, hb, hp⟩ := setg_spec (f := fun y => { y with parent := p }) hg fun _ => rfl
  refine ⟨s', hs', funext fun l => ?_, hp, hm⟩
  cases l <;> grind [gcells]

/-! ### Subgroups move up -/

theorem sib_injective : Injective GCell.sib := fun _ _ h => GCell.sib.inj h

theorem child_ne_sib (g k : Nat) : GCell.child g ≠ GCell.sib k := by
  intro h
  cases h

theorem live_of_parent (h : parent s k = some g) : s.progs k ≠ none := by
  intro hk
  unfold parent at h
  rw [hk] at h
  cases h

theorem putSub_spec (hk : s.progs k ≠ none) (hpg : ∀ h, p = some h → s.progs h ≠ none) :
    ∃ s', putSub k p s = some s' ∧ (∀ q, parent s' q = parent s q) ∧ Moved s s' ∧
      ∀ a xs, Chain (gcells s) GCell.sib (.child a) xs → k ∉ xs →
        Chain (gcells s') GCell.sib (.child a) (if some a = p then k :: xs else xs) := by
  cases p with
  | none => exact ⟨s, rfl, fun _ => rfl, Moved.refl s, fun a xs hch _ => by rwa [if_neg (by simp)]⟩
  | some h =>
    obtain ⟨w, hw⟩ := ne_none_iff_exists'.1 (hpg h rfl)
    have hchild : w.child = gcells s (.child h) := by simp [gcells, hw]
    obtain ⟨s₁, hs₁, hc₁, hp₁, hm₁⟩ := gstore_spec (s := s) (l := .sib k) (v := w.child) hk
    obtain ⟨s₂, hs₂, hc₂, hp₂, hm₂⟩ := gstore_spec (s := s₁) (l := .child h) (v := some k)
      ((not_congr hm₁.progs_none).2 (hpg h rfl))
    refine ⟨s₂, ?_, fun q => (hp₂ q).trans (hp₁ q), hm₁.trans hm₂, fun a xs hch hnot => ?_⟩
    · have hs₁ : (s.setg k fun z => { z with sib := w.child }) = some s₁ := hs₁
      unfold putSub
      simp only [hw, bind_eq_bind, bind_some, hs₁]
      exact hs₂
    rw [hc₂, hc₁, hchild]
    by_cases hah : a = h
    · rw [if_pos (congrArg some hah)]
      subst hah
      exact hch.push hnot sib_injective (child_ne_sib a)
    · rw [if_neg fun heq => hah (some.inj heq)]
      refine (hch.update_ne (child_ne_sib a k) fun b hb heq => ?_).update_ne
        (fun heq => hah (GCell.child.inj heq)) fun b _ =>
        (child_ne_sib h b).symm
      exact hnot (sib_injective heq ▸ hb)

theorem Forest.adoptOne (hf : Forest s c (some g)) (hg : s.progs g ≠ none) (hpg : ∀ h, p = some h → h < g ∧
    s.progs h ≠ none)
    (hc : c g = k :: xs) :
    ∃ s' c', Vm.adoptOne g k p s = some s' ∧ Forest s' c' (some g) ∧ c' g = xs ∧ Moved s s' := by
  have hchain := hf.chain g hg
  have hkmem : k ∈ c g := hc ▸ mem_cons_self
  obtain ⟨hkd, hkp⟩ := (hf.mem g k).1 hkmem
  obtain ⟨y, hy⟩ := ne_none_iff_exists'.1 (live_of_parent hkp)
  have hsib : y.sib = gcells s (.sib k) := by simp [gcells, hy]
  obtain ⟨s₁, hs₁, hc₁, hp₁, hm₁⟩ := gstore_spec (s := s) (l := .child g) (v := y.sib) hg
  obtain ⟨s₂, hs₂, hc₂, hp₂, hm₂⟩ := setParent_spec (p := p) ((not_congr hm₁.progs_none).2 (live_of_parent hkp))
  have hm := hm₁.trans hm₂
  have hpop : Chain (gcells s₂) GCell.sib (.child g) xs := by
    rw [hc₂, hc₁, hsib]
    rw [hc] at hchain
    exact hchain.pop fun b => child_ne_sib g b
  have hkxs : k ∉ xs := (nodup_cons.1 (hc ▸ hchain.nodup)).1
  have hother : ∀ a, a ≠ g → k ∉ c a := fun a ha hmem => ha (some.inj (((hf.mem a k).1 hmem).2.symm.trans hkp))
  have hlive : ∀ a, s₂.progs a ≠ none ↔ s.progs a ≠ none := fun a => not_congr hm.progs_none
  have hchain₂ : ∀ a, s₂.progs a ≠ none → Chain (gcells s₂) GCell.sib (.child a) (if a = g then xs else c a) :=
    fun a ha => by
    split
    · next hag => rwa [hag]
    · next hag =>
      rw [hc₂, hc₁]
      exact (hf.chain a ((hlive a).1 ha)).update_ne (fun heq => hag (GCell.child.inj heq)) fun b _ =>
        (child_ne_sib g b).symm
  have hnot : ∀ a, k ∉ (if a = g then xs else c a) := fun a => by
    split
    · exact hkxs
    · next hag => exact hother a hag
  obtain ⟨s', hs', hp', hm', hc'⟩ := putSub_spec (k := k) (p := p) (s := s₂) ((hlive k).2 (live_of_parent hkp))
    fun h hh =>
    (hlive h).2 (hpg h hh).2
  have hparent : ∀ q, parent s' q = if q = k then p else parent s q := fun q => by rw [hp', hp₂, hp₁]
  refine ⟨s', fun a => if some a = p then k :: (if a = g then xs else c a) else if a = g then xs else c a, ?_,
    ⟨fun a ha => ?_, fun a ha => hc' a _ (hchain₂ a ((not_congr hm'.progs_none).1 ha)) (hnot a), fun a q => ?_,
      fun q a hq => ?_⟩,
    ?_, hm.trans hm'⟩
  · have hs₁ : (s.setg g fun z => { z with child := y.sib }) = some s₁ := hs₁
    unfold Vm.adoptOne
    simp only [hy, bind_eq_bind, bind_some, hs₁, hs₂, hs']
  · rw [(hm.trans hm').nprogs]
    exact hf.lt a ((not_congr (hm.trans hm').progs_none).1 ha)
  · rw [hparent]
    by_cases hqk : q = k
    · rw [if_pos hqk, hqk]
      split
      · next hap => simp [← hap, hkd]
      · next hap => simp [hnot a, Ne.symm hap]
    rw [if_neg hqk, ← hf.mem a q]
    have hold : q ∈ (if a = g then xs else c a) ↔ q ∈ c a := by
      split
      · next hag => rw [hag, hc, mem_cons, or_iff_right hqk]
      · rfl
    split
    · rw [mem_cons, or_iff_right hqk, hold]
    · exact hold
  · rw [hparent] at hq
    refine And.imp_right (not_congr (hm.trans hm').progs_none).2 ?_
    split at hq
    · next hqk =>
      obtain ⟨hag, halive⟩ := hpg a hq
      exact ⟨hag.trans (hqk ▸ (hf.up k g hkp).1), halive⟩
    · exact hf.up q a hq
  · have hg : some g ≠ p := fun heq => absurd (hpg g heq.symm).1 (lt_irrefl g)
    dsimp only
    rw [if_neg hg, if_pos rfl]

theorem Forest.adopt (hf : Forest s c (some g)) (hg : s.progs g ≠ none) (hpg : ∀ h, p = some h → h < g ∧
    s.progs h ≠ none)
    (hn : (c g).length < n) :
    ∃ s' c', Vm.adopt g p n s = some s' ∧ Forest s' c' (some g) ∧ c' g = [] ∧ Moved s s' := by
  induction n generalizing s c with
  | zero => exact absurd hn (Nat.not_lt_zero _)
  | succ n ih =>
    obtain ⟨z, hz⟩ := ne_none_iff_exists'.1 hg
    have hchain := hf.chain g hg
    have hchild : gcells s (.child g) = z.child := by simp [gcells, hz]
    unfold Vm.adopt
    simp only [hz, bind_eq_bind, bind_some]
    cases hc : c g with
    | nil =>
      rw [hc] at hchain
      have hnone : z.child = none := hchild.symm.trans hchain
      rw [hnone]
      exact ⟨s, c, rfl, hf, hc, Moved.refl s⟩
    | cons k xs =>
      rw [hc] at hchain
      have hk : z.child = some k := hchild.symm.trans hchain.1
      obtain ⟨s₁, c₁, hs₁, hf₁, hc₁, hm₁⟩ := hf.adoptOne hg hpg hc
      have hlen : (c₁ g).length < n := by
        rw [hc, length_cons] at hn
        rw [hc₁]
        exact Nat.lt_of_succ_lt_succ hn
      obtain ⟨s', c', hs', hf', hc', hm'⟩ := ih hf₁ ((not_congr hm₁.progs_none).2 hg)
        (fun h hh => (hpg h hh).imp_right (not_congr hm₁.progs_none).2) hlen
      refine ⟨s', c', ?_, hf', hc', hm₁.trans hm'⟩
      rw [hk]
      dsimp only
      rw [hs₁, bind_some, hs']

theorem Forest.length_le (hf : Forest s c d) (hg : s.progs g ≠ none) : (c g).length ≤ s.nprogs := by
  have hsub : (c g) ⊆ range s.nprogs := fun k hk =>
    mem_range.2 (hf.lt k (live_of_parent ((hf.mem g k).1 hk).2))
  have hle := (subperm_of_subset (hf.chain g hg).nodup hsub).length_le
  rwa [length_range] at hle

theorem Forest.unlinkSub (hf : Forest s c none) (hp : parent s g = some h) :
    ∃ s', Vm.unlinkSub g h s = some s' ∧ Forest s' (update c h ((c h).erase g)) (some g) ∧ Moved s s' ∧
      ∀ q, parent s' q = parent s q := by
  have hg := live_of_parent hp
  have hh := (hf.up g h hp).2
  obtain ⟨z, hz⟩ := ne_none_iff_exists'.1 hg
  have hsib : z.sib = gcells s (.sib g) := by simp [gcells, hz]
  have hmem : g ∈ c h := (hf.mem h g).2 ⟨by simp, hp⟩
  have hlen := Nat.lt_succ_of_le (hf.length_le hh)
  have hseek := (hf.chain h hh).seek_eq (p := (· == g)) hlen
  have hfind : (c h).find? (· == g) = some g := by
    cases hf' : (c h).find? (· == g) with
    | none => simpa using find?_eq_none.1 hf' g hmem
    | some a => simpa using find?_some hf'
  obtain ⟨hun, -, hothers⟩ := unlinkFirst_spec sib_injective (hf.chain h hh) (p := (· == g)) hlen fun b _ =>
    child_ne_sib h b
  simp only [unlinkFirst_eq_seek, hseek, hfind] at hun hothers
  have howner : s.progs (endCell GCell.sib (.child h) ((c h).takeWhile fun a => !(a == g))).owner ≠ none := by
    rcases endCell_eq_or GCell.sib (.child h) ((c h).takeWhile fun a => !(a == g)) with ⟨hl, -⟩ | ⟨b, hb, hl⟩
    · rw [hl]
      exact hh
    · rw [hl]
      exact live_of_parent ((hf.mem h b).1 ((takeWhile_sublist _).subset hb)).2
  obtain ⟨s', hs', hc', hp', hm'⟩ := gstore_spec (v := z.sib) howner
  rw [← hsib, ← hc'] at hun hothers
  refine ⟨s', ?_, ⟨fun a ha => ?_, fun a ha => ?_, fun a q => ?_, fun q a hq => ?_⟩, hm', hp'⟩
  · unfold Vm.unlinkSub
    simp only [hz, bind_eq_bind, bind_some, hseek]
    exact hs'
  · rw [hm'.nprogs]
    exact hf.lt a ((not_congr hm'.progs_none).1 ha)
  · by_cases hah : a = h
    · subst hah
      rw [update_self, erase_eq_eraseP']
      exact hun
    rw [update_of_ne hah]
    refine (hf.chain a ((not_congr hm'.progs_none).1 ha)).congr (hothers _ ?_ ?_) fun b hb => hothers _ ?_ ?_
    · exact fun heq => hah (GCell.child.inj heq)
    · exact fun q _ => child_ne_sib a q
    · exact (child_ne_sib h b).symm
    · intro q hq heq
      have hqa := ((hf.mem h q).1 hq).2.symm.trans ((hf.mem a q).1 (sib_injective heq ▸ hb)).2
      exact hah (some.inj hqa).symm
  · rw [hp', update_apply]
    have hnd := (hf.chain h hh).nodup
    have hold := hf.mem a q
    simp only [ne_eq, reduceCtorEq, not_false_eq_true, true_and] at hold
    by_cases hqg : q = g
    · subst hqg
      simp only [ne_eq, not_true_eq_false, false_and, iff_false]
      split
      · exact hnd.not_mem_erase
      · next hah => exact fun hin => hah (some.inj ((hold.1 hin).symm.trans hp))
    · rw [and_iff_right fun heq => hqg (some.inj heq), ← hold]
      split
      · next hah => rw [mem_erase_of_ne hqg, hah]
      · rfl
  · rw [hp'] at hq
    exact (hf.up q a hq).imp_right (not_congr hm'.progs_none).2

theorem Forest.free (hf : Forest s c (some g)) (hc : c g = []) :
    Forest { s with progs := update s.progs g none } c none := by
  have hlive : ∀ {a}, update s.progs g none a ≠ none → a ≠ g ∧ s.progs a ≠ none := fun {a} ha => by
    rw [update_apply] at ha
    split at ha
    · exact absurd rfl ha
    · next hag => exact ⟨hag, ha⟩
  have hparent : ∀ q, parent { s with progs := update s.progs g none } q = if q = g then none
    else parent s q := by
    intro q
    by_cases hqg : q = g
    · simp [parent, hqg]
    · simp [parent, hqg]
  have hnot : ∀ q, q ≠ g → parent s q ≠ some g := fun q hq hp => by
    have hmem := (hf.mem g q).2 ⟨fun heq => hq (some.inj heq), hp⟩
    rw [hc] at hmem
    cases hmem
  refine ⟨fun a ha => hf.lt a (hlive ha).2, fun a ha => ?_, fun a q => ?_, fun q a hq => ?_⟩
  · obtain ⟨hag, halive⟩ := hlive ha
    refine (hf.chain a halive).congr ?_ fun b hb => ?_
    · simp [gcells, hag]
    · have hbg : b ≠ g := fun heq => ((hf.mem a b).1 hb).1 (congrArg some heq)
      simp [gcells, hbg]
  · rw [hparent, hf.mem a q]
    by_cases hqg : q = g
    · simp [hqg]
    · simp [hqg]
  rw [hparent] at hq
  split at hq
  · cases hq
  next hqg =>
  obtain ⟨hlt, halive⟩ := hf.up q a hq
  have hag : a ≠ g := fun heq => hnot q hqg (heq ▸ hq)
  refine ⟨hlt, ?_⟩
  dsimp only
  rwa [update_of_ne hag]

theorem Forest.dissolve (hf : Forest s c none) (hg : s.progs g ≠ none) :
    ∃ s₁ c', Vm.dissolve g s = some (parent s g, { s₁ with progs := update s₁.progs g none }) ∧
      Forest { s₁ with progs := update s₁.progs g none } c' none ∧ Moved s s₁ := by
  obtain ⟨z, hz⟩ := ne_none_iff_exists'.1 hg
  have hparent : parent s g = z.parent := by simp [parent, hz]
  have hdetach : ∃ s₀ c₀, detach g z.parent s = some s₀ ∧ Forest s₀ c₀ (some g) ∧ Moved s s₀ := by
    cases hz' : z.parent with
    | none =>
      refine ⟨s, c, rfl, ⟨hf.lt, hf.chain, fun a k => ?_, hf.up⟩, Moved.refl s⟩
      rw [hf.mem a k]
      by_cases hkg : k = g
      · subst hkg
        simp [hparent, hz']
      · simp [hkg]
    | some h =>
      obtain ⟨s₀, hs₀, hf₀, hm₀, -⟩ := hf.unlinkSub (hparent.trans hz')
      exact ⟨s₀, _, hs₀, hf₀, hm₀⟩
  obtain ⟨s₀, c₀, hs₀, hf₀, hm₀⟩ := hdetach
  have hg₀ := (not_congr hm₀.progs_none).2 hg
  obtain ⟨s₁, c₁, hs₁, hf₁, hc₁, hm₁⟩ := hf₀.adopt (p := z.parent) (n := s₀.nprogs + 1) hg₀
    (fun h hh => (hf.up g h (hparent.trans hh)).imp_right (not_congr hm₀.progs_none).2)
      (Nat.lt_succ_of_le (hf₀.length_le hg₀))
  refine ⟨s₁, c₁, ?_, hf₁.free hc₁, hm₀.trans hm₁⟩
  unfold Vm.dissolve
  simp only [hz, bind_eq_bind, bind_some, hs₀, hs₁, hparent]

end Node9.Vm
