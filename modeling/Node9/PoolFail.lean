import Node9.PoolRun

/-!
# Allocation that fails

`dopoolalloc` counts the memory in `arenasize` before `sbrk` is called, and when the call fails only `nbrk` is set
back. So the pool has that much less to give from then on. The other way to change a pool and return nothing is a
merge, after which a restricted process is refused.
-/

namespace Node9.Pool
open Option

/-- The size of a block for `asize` bytes. -/
def need (asize : Nat) : Nat := quantize (asize + BHDRSIZE + MQUANTA)

/-- There is no room for a whole chunk. -/
def Full (s : St) (asize : Nat) : Prop := s.maxsize < s.arenasize + (max s.chunk (need asize) + ldr + ldr)

instance (s : St) (asize : Nat) : Decidable (Full s asize) := inferInstanceAs (Decidable (_ < _))

/-- The new blocks, without leader and end mark. -/
def arenaBytes (s : St) (asize : Nat) : Nat := if Full s asize then room s else max s.chunk (need asize)

/-- No free block is large enough, and there is room for more memory. -/
structure Grows (s : St) (asize : Nat) : Prop where
  small : ¬ 2 ^ 30 ≤ asize
  tree : search s (need asize) s.fuel s.tree.root none = none
  room : ¬ (Full s asize ∧ room s < need asize)

/-- `sbrk` is called, and fails. -/
def Fails (sbrk : Nat → Nat → Option Nat) (s : St) (asize : Nat) : Prop :=
  Grows s asize ∧ sbrk (s.nbrk + 1) (arenaBytes s asize + ldr + ldr) = none

/-- The memory goes to the end of the last arena, and the process may not have any. -/
def Refused (sbrk : Nat → Nat → Option Nat) (restricted : Bool) (s : St) (asize : Nat) : Prop :=
  Grows s asize ∧ (s.ressize < s.cursize ∧ restricted) ∧
    ∃ c ∈ s.chain, (sbrk (s.nbrk + 1) (arenaBytes s asize + ldr + ldr)).map align = some (s.limit c + ldr)

variable {s s' s₁ : St} {as : List Arena} {sbrk : Nat → Nat → Option Nat} {restricted : Bool}
    {n asize size ns t q : Nat}
  {r : Option Nat}

variable (s') in
theorem search_congr (hsize : s'.size = s.size) (htree : s'.tree = s.tree) (v q : Option Nat) :
    search s' size n v q = search s size n v q := by
  induction n generalizing v q with
  | zero => rfl
  | succ n ih =>
    cases v with
    | none => rfl
    | some t =>
      unfold search
      rw [hsize, htree, ih, ih]

theorem fromTree_eq_none : fromTree size s = none ↔ search s size s.fuel s.tree.root none = none := by
  unfold fromTree
  split
  case h_1 hs => simp [hs]
  case h_2 x hs =>
    rw [hs]
    split
    · simp
    · dsimp only
      split <;> simp

theorem fromTree_count : fromTree size { s with nalloc := n } = none ↔ search s size s.fuel s.tree.root none =
    none := by
  have hs : search { s with nalloc := n } size s.fuel s.tree.root none = search s size s.fuel s.tree.root none :=
    search_congr (s := s) ({ s with nalloc := n }) rfl rfl _ _
  rw [fromTree_eq_none, ← hs]
  exact Iff.rfl

variable (sbrk restricted asize) in
theorem dopoolalloc_cases (hm : s.move = false) :
    let s₀ := { s with nalloc := s.nalloc + 1 }
    (2 ^ 30 ≤ asize ∧ ∀ n, dopoolalloc sbrk restricted (n + 1) asize s = some (none, s)) ∨
    (∃ t s', fromTree (need asize) s₀ = some (t, s') ∧ ∀ n, dopoolalloc sbrk restricted (n + 1) asize s = some
      (some t, s')) ∨
    ((fromTree (need asize) s₀ = none ∧ Full s asize ∧ room s < need asize) ∧
      ∀ n, dopoolalloc sbrk restricted (n + 1) asize s = some (none, s₀)) ∨
    (Grows s asize ∧
      ((∃ s₁, grow sbrk (need asize) (arenaBytes s asize) s₀ = (.failed, s₁) ∧
          ∀ n, dopoolalloc sbrk restricted (n + 1) asize s = some (none, s₁)) ∨
        (∃ t s₁, grow sbrk (need asize) (arenaBytes s asize) s₀ = (.arena t, s₁) ∧
          ∀ n, dopoolalloc sbrk restricted (n + 1) asize s = some (some t, s₁)) ∨
        ∃ q s₁, grow sbrk (need asize) (arenaBytes s asize) s₀ = (.merged q, s₁) ∧
          ∀ n, dopoolalloc sbrk restricted (n + 1) asize s =
            if (poolfree q s₁).ressize < (poolfree q s₁).cursize ∧ restricted then some (none, poolfree q s₁)
            else dopoolalloc sbrk restricted n asize (poolfree q s₁))) := by
  intro s₀
  have hm₀ : s₀.move = false := hm
  simp only [dopoolalloc]
  by_cases ha : 2 ^ 30 ≤ asize
  · exact .inl ⟨ha, fun _ => if_pos ha⟩
  simp only [if_neg ha]
  right
  cases hr : fromTree (need asize) s₀ with
  | some p => exact .inl ⟨p.1, p.2, rfl, fun _ => by rw [show fromTree (quantize _) _ = some p from hr]⟩
  | none =>
    right
    have hr' : fromTree (quantize (asize + BHDRSIZE + MQUANTA)) { s with nalloc := s.nalloc + 1 } = none := hr
    simp only [hr']
    by_cases hfull : Full s asize ∧ room s < need asize
    · refine .inl ⟨⟨trivial, hfull⟩, fun _ => ?_⟩
      have hpc : poolcompact { s with nalloc := s.nalloc + 1 } = (false, s₀) := poolcompact_of_not_move hm₀
      rw [hpc]
      exact if_pos hfull
    refine .inr ⟨⟨ha, fromTree_count.1 hr, hfull⟩, ?_⟩
    have hneg : ¬ (s.maxsize < s.arenasize + (max s.chunk (quantize (asize + BHDRSIZE + MQUANTA)) + ldr + ldr) ∧
        room { s with nalloc := s.nalloc + 1 } < quantize (asize + BHDRSIZE + MQUANTA)) := hfull
    simp only [if_neg hneg]
    have hgrow : grow sbrk (quantize (asize + BHDRSIZE + MQUANTA))
        (if s.maxsize < s.arenasize + (max s.chunk (quantize (asize + BHDRSIZE + MQUANTA)) + ldr + ldr) then
          room { s with nalloc := s.nalloc + 1 } else max s.chunk (quantize (asize + BHDRSIZE + MQUANTA)))
        { s with nalloc := s.nalloc + 1 } = grow sbrk (need asize) (arenaBytes s asize) s₀ := rfl
    rw [hgrow]
    generalize grow sbrk (need asize) (arenaBytes s asize) s₀ = g
    obtain ⟨g, s₁⟩ := g
    cases g with
    | failed => exact .inl ⟨s₁, rfl, fun _ => rfl⟩
    | arena t => exact .inr (.inl ⟨t, s₁, rfl, fun _ => rfl⟩)
    | merged q => exact .inr (.inr ⟨q, s₁, rfl, fun _ => rfl⟩)

/-! ### The account of the memory -/

/-- What `sbrk` has given. -/
def given (s : St) : Nat := (s.got.map Prod.snd).sum

/-- As much has been counted as has been obtained. -/
def Balanced (s s' : St) : Prop := s'.arenasize + given s = s.arenasize + given s'

structure Kept (s s' : St) : Prop where
  arenasize : s'.arenasize = s.arenasize
  got : s'.got = s.got

theorem Kept.trans (h : Kept s s₁) (h' : Kept s₁ s') : Kept s s' := ⟨h'.arenasize.trans h.arenasize, h'.got.trans h.got⟩

theorem Kept.balanced (h : Kept s s') : Balanced s s' := by
  unfold Balanced given
  rw [h.arenasize, h.got]

theorem Balanced.kept (h : Balanced s s₁) (h' : Kept s₁ s') : Balanced s s' := by
  unfold Balanced given at *
  rw [h'.arenasize, h'.got]
  exact h

theorem pooldel_kept : Kept s (pooldel t s) := by
  rw [pooldel_eq]
  exact ⟨rfl, rfl⟩

theorem pooladd_kept : Kept s (pooladd t s) := by
  rw [pooladd_eq]
  exact ⟨rfl, rfl⟩

theorem joinNext_kept : Kept s (joinNext t s) := by
  unfold joinNext
  dsimp only
  split
  · exact pooldel_kept.trans ⟨rfl, rfl⟩
  · exact ⟨rfl, rfl⟩

theorem joinPrev_kept : Kept s (joinPrev t s).2 := by
  unfold joinPrev
  dsimp only
  split
  · exact pooldel_kept.trans ⟨rfl, rfl⟩
  · exact ⟨rfl, rfl⟩

theorem poolfree_kept : Kept s (poolfree t s) := by
  have hjoin := (joinNext_kept (s := { s with nfree := s.nfree + 1, cursize := s.cursize - s.size t }) (t := t)).trans
    (joinPrev_kept (t := t))
  have hfirst : Kept s { s with nfree := s.nfree + 1, cursize := s.cursize - s.size t } := ⟨rfl, rfl⟩
  exact (hfirst.trans hjoin).trans pooladd_kept

theorem setMagic_kept {v : Magic} : Kept s (s.setMagic t v) := ⟨rfl, rfl⟩

theorem setSize_kept : Kept s (s.setSize t size) := ⟨rfl, rfl⟩

theorem setTail_kept : Kept s (s.setTail t) := ⟨rfl, rfl⟩

theorem take_kept : Kept s (take t s) := ⟨rfl, rfl⟩

theorem fromTree_kept (hr : fromTree size s = some (t, s')) : Kept s s' := by
  unfold fromTree at hr
  split at hr
  case h_1 => cases hr
  case h_2 x hx =>
    split at hr
    · cases hr
      exact (pooldel_kept.trans setMagic_kept).trans take_kept
    have hdel : Kept s ((pooldel x s).setMagic x .A) := pooldel_kept.trans setMagic_kept
    dsimp only at hr
    split at hr
    · cases hr
      exact hdel.trans take_kept
    · cases hr
      exact (hdel.trans (setSize_kept.trans setTail_kept)).trans
        ((setSize_kept.trans setTail_kept).trans (pooladd_kept.trans take_kept))

theorem newArena_kept : Kept s (newArena t size ns s).2 := by
  have hlead : Kept s (lead t size ns s) := ⟨rfl, rfl⟩
  refine hlead.trans ?_
  unfold newArena
  dsimp only
  generalize lead t size ns s = s₁
  split
  · exact (setSize_kept.trans setTail_kept).trans (pooladd_kept.trans (setMagic_kept.trans take_kept))
  · exact setMagic_kept.trans take_kept

theorem grow_account {g : Growth} (hg : grow sbrk size ns s = (g, s₁)) :
    (g = .failed ∧ sbrk (s.nbrk + 1) (ns + ldr + ldr) = none ∧
    s₁ = { s with arenasize := s.arenasize + (ns + ldr + ldr) }) ∨
      (g ≠ .failed ∧ sbrk (s.nbrk + 1) (ns + ldr + ldr) ≠ none ∧ Balanced s s₁ ∧
        s₁.arenasize = s.arenasize + (ns + ldr + ldr)) := by
  unfold grow at hg
  dsimp only at hg
  cases hcall : sbrk (s.nbrk + 1) (ns + ldr + ldr) with
  | none =>
    rw [hcall] at hg
    cases hg
    exact .inl ⟨rfl, rfl, rfl⟩
  | some t =>
    rw [hcall] at hg
    right
    have hbal : ∀ s₂, Kept { s with
        arenasize := s.arenasize + (ns + ldr + ldr), nbrk := s.nbrk + 1, got := (t, ns + ldr + ldr) :: s.got } s₂ →
        Balanced s s₂ ∧ s₂.arenasize = s.arenasize + (ns + ldr + ldr) := by
      intro s₂ hk
      refine ⟨?_, hk.arenasize⟩
      unfold Balanced given
      rw [hk.arenasize, hk.got, List.map_cons, List.sum_cons]
      dsimp only
      omega
    dsimp only at hg
    split at hg
    · cases hg
      exact ⟨by simp, by simp, hbal _ newArena_kept⟩
    · split at hg
      · cases hg
        exact ⟨by simp, by simp, hbal _ ⟨rfl, rfl⟩⟩
      · cases hg
        exact ⟨by simp, by simp, hbal _ newArena_kept⟩

theorem joinNext_ressize : (joinNext t s).ressize = s.ressize := by
  unfold joinNext
  dsimp only
  split
  · rw [pooldel_eq]
    rfl
  · rfl

theorem joinPrev_ressize : (joinPrev t s).2.ressize = s.ressize := by
  unfold joinPrev
  dsimp only
  split
  · rw [pooldel_eq]
    rfl
  · rfl

theorem poolfree_cursize : (poolfree t s).cursize = s.cursize - s.size t := by
  unfold poolfree
  dsimp only
  rw [pooladd_eq]
  exact joinPrev_cursize.trans joinNext_cursize

theorem poolfree_ressize : (poolfree t s).ressize = s.ressize := by
  unfold poolfree
  dsimp only
  rw [pooladd_eq]
  exact joinPrev_ressize.trans joinNext_ressize

theorem grow_merged (hg : grow sbrk size ns s = (.merged q, s₁)) :
    ∃ c ∈ s.chain, (sbrk (s.nbrk + 1) (ns + ldr + ldr)).map align = some (s.limit c + ldr) ∧ s₁.ressize = s.ressize ∧
      s₁.cursize - s₁.size q = s.cursize := by
  unfold grow at hg
  dsimp only at hg
  cases hcall : sbrk (s.nbrk + 1) (ns + ldr + ldr) with
  | none =>
    rw [hcall] at hg
    cases hg
  | some t =>
    rw [hcall] at hg
    dsimp only at hg
    split at hg
    case h_1 => cases hg
    case h_2 c hc =>
      split at hg
      case isTrue heq =>
        cases hg
        refine ⟨c, hc, congrArg some heq, rfl, ?_⟩
        show s.cursize + (ns + ldr + ldr) - Function.update s.size (s.limit c) (ns + ldr + ldr) (s.limit c) = s.cursize
        rw [Function.update_self, Nat.add_sub_cancel]
      case isFalse => cases hg

/-- The counters, the tree and the chain of the arenas. -/
structure Unchanged (s s' : St) : Prop where
  cursize : s'.cursize = s.cursize
  hw : s'.hw = s.hw
  arenasize : s'.arenasize = s.arenasize
  tree : s'.tree = s.tree
  ring : s'.ring = s.ring
  size : s'.size = s.size
  chain : s'.chain = s.chain
  clink : s'.clink = s.clink
  csize : s'.csize = s.csize

variable (restricted) in
theorem alloc_after_merge (h : Heap s as) (hm : s.move = false) (hs : Sbrk s sbrk) (hg : Grows s asize)
    (hr : grow sbrk (need asize) (arenaBytes s asize) { s with nalloc := s.nalloc + 1 } = (.merged q, s₁)) :
    ∃ t s', (∀ n, dopoolalloc sbrk restricted (n + 1) asize (poolfree q s₁) = some (some t, s')) ∧
      Kept (poolfree q s₁) s' := by
  have h₀ : Heap { s with nalloc := s.nalloc + 1 } as :=
    h.more rfl rfl rfl rfl rfl rfl rfl rfl rfl (fun _ hg => hg) le_rfl h.layout.bound rfl
  have hzd : ldr ∣ need asize := ldr_dvd_quantize
  have hpos : 0 < need asize := quantize_pos
  obtain ⟨hnd, hle, hroom⟩ : ldr ∣ arenaBytes s asize ∧ need asize ≤ arenaBytes s asize ∧
      s.arenasize + (arenaBytes s asize + ldr + ldr) ≤ s.maxsize := by
    have hroom : room s ≤ s.maxsize - s.arenasize - ldr - ldr := quantize_le
    have hfit := hg.room
    unfold arenaBytes
    split
    case isTrue hfull =>
      have hle : need asize ≤ room s := not_lt.1 fun hlt => hfit ⟨hfull, hlt⟩
      exact ⟨ldr_dvd_quantize, hle, by omega⟩
    case isFalse hfull =>
      unfold Full at hfull
      refine ⟨?_, le_max_right _ _, by omega⟩
      rcases max_choice s.chunk (need asize) with hmax | hmax
      · rw [hmax]
        exact h.layout.chunk
      · rw [hmax]
        exact hzd
  obtain ⟨as', hheap, hmove, hcase⟩ := grow_spec sbrk h₀ hs hpos hzd hnd hle hroom
  rw [hr] at hheap hmove hcase
  rcases hcase with ⟨hfail, -⟩ | ⟨t, hfail, -⟩ | ⟨q', hq, hperm⟩
  · cases hfail
  · cases hfail
  cases hq
  obtain ⟨as₂, hheap₂, -, ⟨d, hd, hdz⟩, hmove₂⟩ := hheap.poolfree (hperm.mem_iff.2 (List.mem_cons_self ..))
  dsimp only at hheap₂ hmove₂ hdz hmove
  have hfree : need asize ≤ d.size := by omega
  have hm₂ : (poolfree q s₁).move = false := (hmove₂.trans hmove).trans hm
  rcases dopoolalloc_cases sbrk restricted asize hm₂ with
    ⟨ha, -⟩ | ⟨t, s', hft, hres⟩ | ⟨⟨hft, -⟩, -⟩ | ⟨hg₂, -⟩
  · exact absurd ha hg.small
  · have hkept := fromTree_kept hft
    exact ⟨t, s', hres, hkept.arenasize, hkept.got⟩
  · have hnone := hheap₂.fromTree_none (fromTree_eq_none.2 (fromTree_count.1 hft)) d hd
    omega
  · have hnone := hheap₂.fromTree_none (fromTree_eq_none.2 hg₂.tree) d hd
    omega

theorem balanced_iff (h : Heap s as) (hm : s.move = false) (hs : Sbrk s sbrk)
    (hr : dopoolalloc sbrk restricted 2 asize s = some (r, s')) : Balanced s s' ↔ ¬ Fails sbrk s asize := by
  have hldr : 0 < ldr := by decide
  rcases dopoolalloc_cases sbrk restricted asize hm with
    ⟨ha, hres⟩ | ⟨t, s₁, hft, hres⟩ | ⟨⟨-, hfull⟩, hres⟩ | ⟨hg, hgrow⟩
  · cases (hres 1).symm.trans hr
    exact ⟨fun _ hf => hf.1.small ha, fun _ => Kept.balanced ⟨rfl, rfl⟩⟩
  · cases (hres 1).symm.trans hr
    have hkept := fromTree_kept hft
    refine ⟨fun _ hf => ?_, fun _ => Kept.balanced ⟨hkept.arenasize, hkept.got⟩⟩
    exact some_ne_none _ (hft.symm.trans (fromTree_count.2 hf.1.tree))
  · cases (hres 1).symm.trans hr
    exact ⟨fun _ hf => hf.1.room hfull, fun _ => Kept.balanced ⟨rfl, rfl⟩⟩
  rcases hgrow with ⟨s₁, hgr, hres⟩ | ⟨t, s₁, hgr, hres⟩ | ⟨q, s₁, hgr, hres⟩
  · cases (hres 1).symm.trans hr
    rcases grow_account hgr with ⟨-, hcall, rfl⟩ | ⟨hne, -⟩
    · refine ⟨fun hbal => ?_, fun hnf => absurd ⟨hg, hcall⟩ hnf⟩
      have hbal' : s.arenasize + (arenaBytes s asize + ldr + ldr) + given s = s.arenasize + given s := hbal
      omega
    · exact absurd rfl hne
  · cases (hres 1).symm.trans hr
    rcases grow_account hgr with ⟨hfail, -⟩ | ⟨-, hcall, hbal, -⟩
    · cases hfail
    · exact ⟨fun _ hf => hcall hf.2, fun _ => hbal⟩
  have hnf : ¬ Fails sbrk s asize := by
    rcases grow_account hgr with ⟨hfail, -⟩ | ⟨-, hcall, -⟩
    · cases hfail
    · exact fun hf => hcall hf.2
  have hbal : Balanced s s₁ := by
    rcases grow_account hgr with ⟨hfail, -⟩ | ⟨-, -, hbal, -⟩
    · cases hfail
    · exact hbal
  refine ⟨fun _ => hnf, fun _ => ?_⟩
  have hr' := (hres 1).symm.trans hr
  split at hr'
  · cases hr'
    exact hbal.kept poolfree_kept
  · obtain ⟨t, s₂, hagain, hkept⟩ := alloc_after_merge restricted h hm hs hg hgr
    cases (hagain 0).symm.trans hr'
    exact hbal.kept (poolfree_kept.trans hkept)

/-- Nothing comes back, and nothing has changed, unless `sbrk` fails or its memory goes to a process that is refused. -/
theorem unchanged_iff (h : Heap s as) (hm : s.move = false) (hs : Sbrk s sbrk)
    (hr : dopoolalloc sbrk restricted 2 asize s = some (none, s')) :
    Unchanged s s' ↔ ¬ Fails sbrk s asize ∧ ¬ Refused sbrk restricted s asize := by
  have hldr : 0 < ldr := by decide
  rcases dopoolalloc_cases sbrk restricted asize hm with
    ⟨ha, hres⟩ | ⟨t, s₁, hft, hres⟩ | ⟨⟨-, hfull⟩, hres⟩ | ⟨hg, hgrow⟩
  · cases (hres 1).symm.trans hr
    exact ⟨fun _ => ⟨fun hf => hf.1.small ha, fun hf => hf.1.small ha⟩, fun _ => ⟨rfl, rfl, rfl, rfl, rfl, rfl, rfl,
      rfl, rfl⟩⟩
  · cases (hres 1).symm.trans hr
  · cases (hres 1).symm.trans hr
    exact ⟨fun _ => ⟨fun hf => hf.1.room hfull, fun hf => hf.1.room hfull⟩,
      fun _ => ⟨rfl, rfl, rfl, rfl, rfl, rfl, rfl, rfl, rfl⟩⟩
  rcases hgrow with ⟨s₁, hgr, hres⟩ | ⟨t, s₁, hgr, hres⟩ | ⟨q, s₁, hgr, hres⟩
  · cases (hres 1).symm.trans hr
    rcases grow_account hgr with ⟨-, hcall, rfl⟩ | ⟨hne, -⟩
    · refine ⟨fun hun => ?_, fun hnot => absurd ⟨hg, hcall⟩ hnot.1⟩
      have hsame : s.arenasize + (arenaBytes s asize + ldr + ldr) = s.arenasize := hun.arenasize
      omega
    · exact absurd rfl hne
  · cases (hres 1).symm.trans hr
  have hr' := (hres 1).symm.trans hr
  split at hr'
  case isTrue hcond =>
    cases hr'
    rw [poolfree_ressize, poolfree_cursize] at hcond
    obtain ⟨c, hc, hcall, hressize, hcursize⟩ := grow_merged hgr
    rw [hressize, hcursize] at hcond
    refine ⟨fun hun => ?_, fun hnot => absurd ⟨hg, hcond, c, hc, hcall⟩ hnot.2⟩
    have hmore : (poolfree q s₁).arenasize = s.arenasize + (arenaBytes s asize + ldr + ldr) := by
      rcases grow_account hgr with ⟨hfail, -⟩ | ⟨-, -, -, hmore⟩
      · cases hfail
      · exact poolfree_kept.arenasize.trans hmore
    have hsame := hun.arenasize
    omega
  case isFalse =>
    obtain ⟨t, s₂, hagain, -⟩ := alloc_after_merge restricted h hm hs hg hgr
    cases (hagain 0).symm.trans hr'

/-- A call of `sbrk` in this operation fails. -/
def Act.Fails (r : Run) : Act → Prop
  | .alloc sbrk _ asize => Pool.Fails sbrk r.s asize
  | .free _ => False
  | .realloc sbrk restricted v size =>
    ¬ 2 ^ 30 ≤ size ∧ size ≠ 0 ∧ (∀ x ∈ v, ¬ size ≤ r.s.size x.1 - BHDRSIZE) ∧
      ¬ (r.s.ressize < r.s.cursize ∧ restricted) ∧ Pool.Fails sbrk r.s size

theorem realloc_balanced_iff {r r' : Run} {v : Option (Nat × Nat)} (h : Good r as) (hs : Sbrk r.s sbrk)
    (hr : step r (.realloc sbrk restricted v size) = some r') :
    Balanced r.s r'.s ↔ ¬ (Act.realloc sbrk restricted v size).Fails r := by
  dsimp only [step] at hr
  split at hr
  case isFalse => cases hr
  obtain ⟨⟨b, s'⟩, ha, rfl⟩ := map_eq_some_iff.1 hr
  dsimp only [Act.Fails]
  unfold poolrealloc at ha
  by_cases hbig : 2 ^ 30 ≤ size
  · rw [if_pos hbig] at ha
    cases ha
    exact ⟨fun _ hf => hf.1 hbig, fun _ => Kept.balanced ⟨rfl, rfl⟩⟩
  rw [if_neg hbig] at ha
  by_cases hzero : size = 0
  · rw [if_pos hzero] at ha
    cases v with
    | none => cases ha
    | some x =>
      cases ha
      exact ⟨fun _ hf => hf.2.1 hzero, fun _ => poolfree_kept.balanced⟩
  rw [if_neg hzero] at ha
  have halloc : ∀ b s₁, poolalloc sbrk restricted 2 size r.s = some (b, s₁) →
      (Balanced r.s s₁ ↔ ¬ (¬ (r.s.ressize < r.s.cursize ∧ restricted) ∧ Pool.Fails sbrk r.s size)) := by
    intro b s₁ hb
    unfold poolalloc at hb
    split at hb
    case isTrue hres =>
      cases hb
      exact ⟨fun _ hf => hf.1 hres, fun _ => Kept.balanced ⟨rfl, rfl⟩⟩
    case isFalse hres =>
      rw [balanced_iff h.heap h.move hs hb]
      exact ⟨fun hnf hf => hnf hf.2, fun hnf hf => hnf ⟨hres, hf⟩⟩
  cases v with
  | none =>
    have hiff := halloc b s' ha
    simp only [mem_def, reduceCtorEq, false_imp_iff, implies_true, true_and]
    rw [hiff]
    exact ⟨fun hnf hf => hnf hf.2.2, fun hnf hf => hnf ⟨hbig, hzero, hf⟩⟩
  | some x =>
    dsimp only [map_some] at ha
    by_cases hfits : size ≤ r.s.size x.1 - BHDRSIZE
    · rw [if_pos hfits] at ha
      cases ha
      exact ⟨fun _ hf => hf.2.2.1 x rfl hfits, fun _ => Kept.balanced ⟨rfl, rfl⟩⟩
    rw [if_neg hfits] at ha
    have hv : ∀ y ∈ some x, ¬ size ≤ r.s.size y.1 - BHDRSIZE := by
      rintro y hy
      cases hy
      exact hfits
    cases hpa : poolalloc sbrk restricted 2 size r.s with
    | none =>
      rw [hpa] at ha
      cases ha
    | some p =>
      obtain ⟨b₁, s₁⟩ := p
      rw [hpa] at ha
      have hiff := halloc b₁ s₁ hpa
      have hkept : Kept s₁ s' := by
        cases b₁ with
        | none =>
          cases ha
          exact ⟨rfl, rfl⟩
        | some d =>
          cases ha
          have hdata : ∀ w, Kept s₁ (poolfree x.1 { s₁ with data := w }) := fun w =>
            ⟨poolfree_kept.arenasize, poolfree_kept.got⟩
          exact hdata _
      have hsame : Balanced r.s s' ↔ Balanced r.s s₁ := by
        unfold Balanced given
        rw [hkept.arenasize, hkept.got]
      rw [hsame, hiff]
      exact ⟨fun hnf hf => hnf hf.2.2.2, fun hnf hf => hnf ⟨hbig, hzero, hv, hf⟩⟩

theorem step_balanced_iff {r r' : Run} {a : Act} (h : Good r as) (hf : a.Fair r) (hr : step r a = some r') :
    Balanced r.s r'.s ↔ ¬ a.Fails r := by
  cases a with
  | alloc sbrk restricted asize =>
    obtain ⟨⟨b, s'⟩, ha, rfl⟩ := map_eq_some_iff.1 hr
    exact balanced_iff h.heap h.move hf ha
  | free x =>
    dsimp only [step] at hr
    split at hr
    · cases hr
      exact ⟨fun _ => id, fun _ => poolfree_kept.balanced⟩
    · cases hr
  | realloc sbrk restricted v size => exact realloc_balanced_iff h hf hr

/-- What is counted is what has been obtained. -/
def Counted (r : Run) : Prop := r.s.arenasize = given r.s

theorem counted_iff_along {r : Run} {acts : List Act} (hgood : ∃ as, Good r as) (hc : Counted r)
    (hf : Steps.Along step (fun r a => a.Fair r) r acts) :
    Steps.Always step Counted r acts ↔ Steps.Along step (fun r a => ¬ a.Fails r) r acts := by
  induction acts generalizing r with
  | nil =>
    refine ⟨fun _ => trivial, fun _ pre hpre s' hrun => ?_⟩
    rw [List.prefix_nil.1 hpre] at hrun
    cases hrun
    exact hc
  | cons a acts ih =>
    have hnext : ∀ r', step r a = some r' → ((Counted r' ↔ ¬ a.Fails r) ∧ (Counted r' →
        (Steps.Always step Counted r' acts ↔ Steps.Along step (fun r a => ¬ a.Fails r) r' acts))) := by
      intro r' hr
      obtain ⟨hfair, hf'⟩ := hf r' hr
      obtain ⟨as, hg⟩ := hgood
      have hbal := step_balanced_iff hg hfair hr
      refine ⟨?_, fun hc' => ih (step_good ⟨as, hg⟩ hfair hr) hc' hf'⟩
      rw [← hbal]
      unfold Counted Balanced at *
      omega
    rw [Steps.always_cons]
    constructor
    · rintro ⟨-, hall⟩ r' hr
      obtain ⟨hiff, hrest⟩ := hnext r' hr
      have hc' := (hall r' hr).start
      exact ⟨hiff.1 hc', (hrest hc').1 (hall r' hr)⟩
    · intro hall
      refine ⟨hc, fun r' hr => ?_⟩
      obtain ⟨hnf, hrest'⟩ := hall r' hr
      obtain ⟨hiff, hrest⟩ := hnext r' hr
      exact (hrest (hiff.2 hnf)).2 hrest'

theorem atomic_iff (h : Empty s) (acts : List Act) (hf : Steps.Along step (fun r a => a.Fair r) ⟨s, []⟩ acts) :
    (Steps.Always step Counted ⟨s, []⟩ acts ↔ Steps.Along step (fun r a => ¬ a.Fails r) ⟨s, []⟩ acts) ∧
      Steps.Always step (fun r => ∀ sbrk restricted asize s', Sbrk r.s sbrk →
        dopoolalloc sbrk restricted 2 asize r.s = some (none, s') →
          (Unchanged r.s s' ↔ ¬ Fails sbrk r.s asize ∧ ¬ Refused sbrk restricted r.s asize)) ⟨s, []⟩ acts := by
  have hcount : Counted ⟨s, []⟩ := by
    unfold Counted given
    dsimp only
    rw [h.arenasize, h.got]
    rfl
  refine ⟨counted_iff_along ⟨[], h.good⟩ hcount hf, ?_⟩
  refine (hf.always (I := fun r => ∃ as, Good r as) (fun _ _ _ hI hG hs => step_good hI hG hs) ⟨[], h.good⟩).mono ?_
  rintro r ⟨as, hg⟩ sbrk restricted asize s' hs hr
  exact unchanged_iff hg.heap hg.move hs hr

theorem atomic_iff_start :
    (Steps.Always step Counted ⟨start, []⟩ [.alloc (fun _ _ => none) false 100] ↔
      Steps.Along step (fun r a => ¬ a.Fails r) ⟨start, []⟩ [.alloc (fun _ _ => none) false 100]) ∧
      Steps.Always step (fun r => ∀ sbrk restricted asize s', Sbrk r.s sbrk →
        dopoolalloc sbrk restricted 2 asize r.s = some (none, s') →
          (Unchanged r.s s' ↔ ¬ Fails sbrk r.s asize ∧ ¬ Refused sbrk restricted r.s asize)) ⟨start, []⟩
        [.alloc (fun _ _ => none) false 100] :=
  atomic_iff ⟨rfl, rfl, rfl, rfl, rfl, rfl,
    by decide⟩ _ fun r _ => ⟨fun k n t ht => absurd ht.symm (Option.some_ne_none t), trivial⟩

/-- The first call of `sbrk` fails. -/
theorem not_atomic : ¬ ∀ s sbrk restricted asize s', Empty s → Sbrk s sbrk →
    dopoolalloc sbrk restricted 2 asize s = some (none, s') → Unchanged s s' := by
  intro hall
  have hres : (dopoolalloc (fun _ _ => none) false 2 100 start).map (fun p => (p.1, p.2.arenasize)) = some (none,
    524416) := by
    decide
  obtain ⟨⟨b, s'⟩, hr, heq⟩ := Option.map_eq_some_iff.1 hres
  obtain ⟨rfl, harena⟩ := Prod.mk.inj heq
  have hun := hall start (fun _ _ => none) false 100 s' ⟨rfl, rfl, rfl, rfl, rfl, rfl, by decide⟩
    (fun k n t ht => absurd ht.symm (Option.some_ne_none t)) hr
  cases harena.symm.trans hun.arenasize

end Node9.Pool
