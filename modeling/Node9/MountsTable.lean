import Node9.MountsCopy

/-!
# No mount point without mounts

A new `Mhead` is hashed before `cmount` has a mount for it, and before `pgrpcpy` has copied one: when `newmount`
fails there, the `Mhead` stays in the table with an empty list. Everything else keeps the table as it should be.
-/

namespace Node9.Mounts
open Linked Steps Function
open Option hiding mem_map mem_map_of_mem or_self
open List hiding Chain

/-- The table of `pg` is the lists `ms`, bucket by bucket. -/
structure Table (s : St) (pg : Nat) (ms : Nat → List Nat) : Prop where
  chain : ∀ i < MNTHASH, Chain s.hash .hash (.bucket pg i) (ms i)
  bucket : ∀ i < MNTHASH, ∀ m ∈ ms i, MOUNTH (s.loc m) = i
  distinct : ∀ i < MNTHASH, ∀ j < MNTHASH, ∀ m ∈ ms i, ∀ m' ∈ ms j, s.loc m = s.loc m' → m = m'
  mounts : ∀ i < MNTHASH, ∀ m ∈ ms i, ∃ f fs, Chain s.next .next (.mount m) (f :: fs) ∧
    ∀ g ∈ f :: fs, (s.mount g).head = m

def Safe (s : St) : Prop :=
  ∀ pg, s.ref pg ≠ 0 → (∃ ms, Table s pg ms) ∧ ∀ a, findmount pg a s ≠ .nilptr

/-- The mounts of `m`. -/
def St.list (s : St) (m : Nat) : List Nat := collect s.next .next s.fuel (.mount m)

def St.rows (s : St) (pg : Nat) : List Row :=
  ((List.range MNTHASH).flatMap fun i => collect s.hash .hash s.fuel (.bucket pg i)).map fun m => (s.loc m, s.list m)

/-- The mounts that go along with a channel that is the first of a union. -/
def St.rest (s : St) (umh : Option Nat) : List Nat := (umh.elim [] s.list).tail

/-- The tests before `cmount` looks at the table. -/
def refused (s : St) (new old : Chan) (umh : Option Nat) (flag : BitVec 32) : Prop :=
  new.qtdir ≠ old.qtdir ∨ (old.qtdir = false ∧ flag &&& MORDER ≠ MREPL) ∨ (flag &&& MCREATE ≠ 0 ∧ notSimple s umh)

/-- Where a new `Mhead` is hashed, the allocation of its first mount succeeds, and with `MREPL` that of all. -/
def FirstMounts (s : St) : Act → Prop
  | .cmount room pg new old umh flag _ =>
    ¬ refused s new old umh flag → (s.lookup pg old.loc).2 = none →
      if flag &&& MORDER = MREPL then (s.rest umh).length < room else room ≠ 0
  | .pgrpcpy room _ _ frmpg =>
    ∀ rows row rows', s.rows frmpg = rows ++ row :: rows' → room ≠ (rows.map fun r => r.2.length + 1).sum + 1
  | _ => True

/-- `Ok`, and no list of a group that is in use is empty. -/
def Inv (s : St) : Prop :=
  ∃ own hs fs, Ok s own hs fs ∧ ∀ pg, s.ref pg ≠ 0 → ∀ m ∈ headsOf hs pg, fs m ≠ []

variable {s s' : St} {own : Nat → Nat} {hs : Nat → Nat → List Nat} {fs : Nat → List Nat}

theorem Ok.list_eq (h : Ok s own hs fs) (m : Nat) : s.list m = fs m :=
  (h.next m).collect_eq (Nat.le_succ_of_le h.length_fs_le)

theorem Ok.rest_eq (h : Ok s own hs fs) (umh : Option Nat) : s.rest umh = rest fs umh := by
  unfold St.rest rest
  rw [funext h.list_eq]

theorem Ok.rows_eq (h : Ok s own hs fs) (pg : Nat) : s.rows pg = rowsOf s hs fs pg := by
  unfold St.rows rowsOf headsOf
  have hcollect : (fun i => collect s.hash .hash s.fuel (.bucket pg i)) = hs pg := funext fun i =>
    (h.hash pg i).collect_eq (Nat.le_succ_of_le h.length_hs_le)
  rw [hcollect]
  refine map_congr_left fun m _ => ?_
  rw [h.list_eq, St.row]

theorem inv_safe (h : Inv s) : Safe s := by
  obtain ⟨own, hs, fs, hok, hfs⟩ := h
  intro pg hpg
  refine ⟨⟨hs pg, fun i _ => hok.hash pg i, fun i _ m hm => (hok.bucket pg i m hm).2.1,
    fun i _ j _ m hm m' hm' heq => ?_, fun i _ m hm => ?_⟩, fun a hnil => ?_⟩
  · have hi := (hok.bucket pg i m hm).2.1
    have hj := (hok.bucket pg j m' hm').2.1
    obtain rfl : i = j := by rw [← hi, ← hj, heq]
    exact inj_on_of_nodup_map (hok.inj pg i) hm hm' heq
  · have hne := hfs pg hpg m (hok.mem_headsOf.2 (by rwa [(hok.bucket pg i m hm).2.1]))
    obtain ⟨f, fs', hf⟩ := exists_cons_of_ne_nil hne
    exact ⟨f, fs', hf ▸ hok.next m, fun g hg => (hok.heads m g (hf ▸ hg)).1⟩
  unfold findmount at hnil
  cases hlook : (s.lookup pg a).2 with
  | none => simp [hlook] at hnil
  | some m =>
    obtain ⟨hm, rfl⟩ := hok.lookup_some hlook
    have hne := hfs pg hpg m (hok.mem_headsOf.2 hm)
    obtain ⟨f, fs', hf⟩ := exists_cons_of_ne_nil hne
    have hch := hok.next m
    rw [hf] at hch
    simp [hlook, hch.1] at hnil

theorem Ok.ne_nil_of_safe {pg m : Nat} (h : Ok s own hs fs) (hsafe : Safe s) (hpg : s.ref pg ≠ 0)
    (hm : m ∈ headsOf hs pg) : fs m ≠ [] := by
  obtain ⟨⟨ms, htab⟩, -⟩ := hsafe pg hpg
  have hi := MOUNTH_lt (s.loc m)
  have hmem : m ∈ ms (MOUNTH (s.loc m)) := by
    rw [(htab.chain _ hi).unique (h.hash pg _)]
    exact h.mem_headsOf.1 hm
  obtain ⟨f, fs', hch, -⟩ := htab.mounts _ hi m hmem
  rw [(h.next m).unique hch]
  exact cons_ne_nil f fs'

section
variable {pg : Nat} {new old : Chan} {umh : Option Nat} {flag : BitVec 32} {spec : Option String}

variable (pg spec) in
theorem cmount_refused (h : refused s new old umh flag) : ∃ e, cmount pg new old umh flag spec s = (.error e, s) := by
  unfold cmount
  dsimp only
  by_cases h₁ : new.qtdir ≠ old.qtdir
  · exact ⟨_, if_pos h₁⟩
  rw [if_neg h₁]
  by_cases h₂ : old.qtdir = false ∧ flag &&& MORDER ≠ MREPL
  · exact ⟨_, if_pos h₂⟩
  · rw [if_neg h₂]
    have h₃ := (h.resolve_left h₁).resolve_left h₂
    exact ⟨_, if_pos h₃⟩

theorem cmount_eq (h : ¬ refused s new old umh flag) : cmount pg new old umh flag spec s =
    match mountHead pg old (flag &&& MORDER) s with
    | (none, s) => (.error .Enomem, s)
    | (some m, s) => mountOn m new umh flag spec s := by
  obtain ⟨h₁, h₂⟩ := not_or.1 h
  obtain ⟨h₂, h₃⟩ := not_or.1 h₂
  unfold cmount
  dsimp only
  rewrite [if_neg h₁, if_neg h₂, if_neg h₃]
  rfl

theorem cmount_old {m : Nat} (hr : ¬ refused s new old umh flag)
    (hm : (s.lookup pg old.loc).2 = some m) : cmount pg new old umh flag spec s = mountOn m new umh flag spec s := by
  rw [cmount_eq hr, mountHead_some hm]

theorem mem_headsOf_addHead {pg' m x : Nat} {a : Loc} :
    m ∈ headsOf (addHead hs pg a x) pg' ↔ m ∈ headsOf hs pg' ∨ pg' = pg ∧ m = x := by
  have hcase : ∀ i, addHead hs pg a x pg' i = if pg' = pg ∧ i = MOUNTH a then hs pg' i ++ [x] else hs pg' i := by
    intro i
    unfold addHead
    by_cases hpg : pg' = pg
    · subst hpg
      by_cases hi : i = MOUNTH a <;> simp [hi]
    · simp [hpg]
  unfold headsOf
  simp only [mem_flatMap, mem_range, hcase]
  constructor
  · rintro ⟨i, hi, hm⟩
    split at hm
    · next hbk =>
      rcases mem_append.1 hm with hm | hm
      · exact .inl ⟨i, hi, hm⟩
      · exact .inr ⟨hbk.1, mem_singleton.1 hm⟩
    · exact .inl ⟨i, hi, hm⟩
  · rintro (⟨i, hi, hm⟩ | ⟨rfl, rfl⟩)
    · refine ⟨i, hi, ?_⟩
      split
      · exact mem_append_left _ hm
      · exact hm
    · exact ⟨MOUNTH a, MOUNTH_lt a, by simp⟩

theorem ordered_ne_nil {order : BitVec 32} {L N : List Nat} (hN : N ≠ []) : ordered order L N ≠ [] := by
  unfold ordered
  split
  · exact hN
  · split <;> simp [hN]

theorem range'_succ_ne_nil {a n : Nat} : List.range' a (n + 1) ≠ [] := by simp

end

/-- The lists of the groups in use are not empty. -/
def Full (s : St) (hs : Nat → Nat → List Nat) (fs : Nat → List Nat) : Prop :=
  ∀ pg, s.ref pg ≠ 0 → ∀ m ∈ headsOf hs pg, fs m ≠ []

theorem full_mountOn {m : Nat} {new : Chan} {umh : Option Nat} {flag : BitVec 32} {spec : Option String}
    (h : Ok s own hs fs) (hm : m < s.fresh)
    (hfull : ∀ pg, s.ref pg ≠ 0 → ∀ m' ∈ headsOf hs pg, m' ≠ m ∨ s.room ≤ (rest fs umh).length → fs m' ≠ []) :
    Inv (mountOn m new umh flag spec s).2 := by
  obtain ⟨hfail, hdone⟩ := mountOn_spec new umh flag spec h hm
  by_cases hroom : s.room ≤ (rest fs umh).length
  · obtain ⟨-, halloc⟩ := hfail hroom
    refine ⟨own, hs, fs, halloc.ok h, fun pg hpg m' hm' => ?_⟩
    rw [halloc.groups.1] at hpg
    exact hfull pg hpg m' hm' (.inr hroom)
  obtain ⟨-, hframe, hok, -⟩ := hdone (by omega)
  refine ⟨own, hs, _, hok, fun pg hpg m' hm' => ?_⟩
  rw [hframe.groups.1] at hpg
  by_cases hmm : m' = m
  · subst hmm
    rw [update_self]
    exact ordered_ne_nil range'_succ_ne_nil
  · rw [update_of_ne hmm]
    exact hfull pg hpg m' hm' (.inl hmm)

theorem inv_cmount (room : Nat) {pg : Nat} {new old : Chan} {umh : Option Nat} {flag : BitVec 32} {spec : Option String}
    (hI : Inv s) (hroom : s.room = room) (hG : FirstMounts s (.cmount room pg new old umh flag spec)) :
    Inv (cmount pg new old umh flag spec s).2 := by
  by_cases hr : refused s new old umh flag
  · obtain ⟨e, he⟩ := cmount_refused pg spec hr
    rw [he]
    exact hI
  obtain ⟨own, hs, fs, hok, hfull⟩ := hI
  cases hlook : (s.lookup pg old.loc).2 with
  | some m =>
    rw [cmount_old hr hlook]
    exact full_mountOn hok (hok.bucket _ _ m (hok.lookup_some hlook).1).2.2 fun pg hpg m' hm' _ => hfull pg hpg m' hm'
  | none =>
    have hroom' := hG hr hlook
    obtain ⟨hframe, hsome, hlt, hok', -, -, hroom₁, -⟩ := mountHead_none (flag &&& MORDER) hok hlook
    rw [cmount_eq hr]
    generalize mountHead pg old (flag &&& MORDER) s = r at *
    obtain ⟨m, s₁⟩ := r
    dsimp only at *
    have hold : ∀ pg', s₁.ref pg' ≠ 0 → ∀ m' ∈ headsOf (addHead hs pg old.loc s.fresh) pg', m' = s.fresh ∨
      fs m' ≠ [] := by
      intro pg' hpg' m' hm'
      rw [hframe.groups.1] at hpg'
      rcases mem_headsOf_addHead.1 hm' with hm' | ⟨-, rfl⟩
      · exact .inr (hfull pg' hpg' m' hm')
      · exact .inl rfl
    by_cases hord : flag &&& MORDER = MREPL
    · simp only [hord, true_or, ↓reduceIte] at hsome hok' hroom₁ hroom'
      rw [hok.rest_eq] at hroom'
      rw [hsome]
      refine full_mountOn hok' hlt fun pg' hpg' m' hm' hne => ?_
      rcases hold pg' hpg' m' hm' with rfl | hfs
      · omega
      · exact hfs
    simp only [hord, ↓reduceIte] at hroom'
    rw [← hroom] at hroom'
    simp only [hord, hroom', ne_eq, not_false_eq_true, or_true, or_self, ↓reduceIte] at hsome hok'
    rw [hsome]
    refine full_mountOn hok' hlt fun pg' hpg' m' hm' _ => ?_
    rcases hold pg' hpg' m' hm' with rfl | hfs
    · rw [update_self]
      exact cons_ne_nil _ _
    · by_cases hmm : m' = s.fresh
      · rw [hmm, update_self]
        exact cons_ne_nil _ _
      · rwa [update_of_ne hmm]

theorem not_safe_cmount (room : Nat) {pg : Nat} {new old : Chan} {umh : Option Nat} {flag : BitVec 32}
    {spec : Option String}
    (hI : Inv s) (hroom : s.room = room) (hpg : s.ref pg ≠ 0)
    (hG : ¬ FirstMounts s (.cmount room pg new old umh flag spec)) : ¬ Safe (cmount pg new old umh flag spec s).2 := by
  obtain ⟨own, hs, fs, hok, -⟩ := hI
  unfold FirstMounts at hG
  push Not at hG
  obtain ⟨hr, hlook, hfail⟩ := hG
  obtain ⟨hframe, hsome, hlt, hok', -, -, hroom₁, -⟩ := mountHead_none (flag &&& MORDER) hok hlook
  rw [cmount_eq hr]
  generalize mountHead pg old (flag &&& MORDER) s = r at *
  obtain ⟨m, s₁⟩ := r
  dsimp only at *
  have hnil : fs s.fresh = [] := hok.new _ (le_refl _)
  have hmem : s.fresh ∈ headsOf (addHead hs pg old.loc s.fresh) pg := mem_headsOf_addHead.2 (.inr ⟨rfl, rfl⟩)
  have href : s₁.ref pg ≠ 0 := by rwa [hframe.groups.1]
  by_cases hord : flag &&& MORDER = MREPL
  · simp only [hord, true_or, ↓reduceIte] at hsome hok' hroom₁ hfail
    rw [hok.rest_eq] at hfail
    rw [hsome]
    obtain ⟨-, halloc⟩ := (mountOn_spec new umh flag spec hok' hlt).1 (by omega)
    refine fun hsafe => (halloc.ok hok').ne_nil_of_safe hsafe ?_ hmem hnil
    rwa [halloc.groups.1]
  · simp only [hord, ↓reduceIte, ne_eq, not_not] at hfail
    rw [← hroom] at hfail
    simp only [hord, hfail, ne_eq, not_true_eq_false, or_true, or_self, ↓reduceIte] at hsome hok'
    rw [hsome]
    exact fun hsafe => hok'.ne_nil_of_safe hsafe href hmem hnil

/-! ### `cunmount` and `closepgrp` -/

theorem not_mem_dropHead {pg pg' m : Nat} {a : Loc} (h : Ok s own hs fs) (hm : (s.lookup pg a).2 = some m) :
    m ∉ headsOf (dropHead s.loc hs pg a) pg' := by
  obtain ⟨hmem, rfl⟩ := h.lookup_some hm
  intro hmem'
  obtain ⟨i, -, hi⟩ := mem_flatMap.1 hmem'
  obtain ⟨rfl, rfl, -⟩ := h.bucket _ _ _ (dropHead_sublist.subset hi)
  obtain ⟨rfl, -, -⟩ := h.bucket _ _ _ hmem
  simp only [dropHead, update_self] at hi
  have hperm := find?_append_eraseP_perm (fun m' => eqchan (s.loc m') (s.loc m)) (hs (own m) (MOUNTH (s.loc m)))
  have hnd := nodup_append.1 (hperm.nodup_iff.2 (h.hash _ _).nodup)
  have hfind : (hs (own m) (MOUNTH (s.loc m))).find? (fun m' => eqchan (s.loc m') (s.loc m)) = some m := by
    rw [h.lookup_eq] at hm
    exact hm
  rw [hfind] at hnd
  exact hnd.2.2 m (by simp) m hi rfl

theorem headsOf_dropHead {pg pg' m : Nat} {a : Loc} (hm : m ∈ headsOf (dropHead s.loc hs pg a) pg') :
    m ∈ headsOf hs pg' := by
  obtain ⟨i, hi, hm⟩ := mem_flatMap.1 hm
  exact mem_flatMap.2 ⟨i, hi, dropHead_sublist.subset hm⟩

theorem mem_headsOf_dropHead {pg pg' m : Nat} {a : Loc} (hm : m ∈ headsOf hs pg') (hne : pg' = pg → s.loc m ≠ a) :
    m ∈ headsOf (dropHead s.loc hs pg a) pg' := by
  obtain ⟨i, hi, hm⟩ := mem_flatMap.1 hm
  refine mem_flatMap.2 ⟨i, hi, ?_⟩
  unfold dropHead
  by_cases hpg : pg' = pg
  · subst hpg
    rw [update_self]
    by_cases hbk : i = MOUNTH a
    · subst hbk
      rw [update_self]
      have hneg : ¬ eqchan (s.loc m) a = true := fun heq => hne rfl (eqchan_iff.1 heq)
      exact (mem_eraseP_of_neg (p := fun m => eqchan (s.loc m) a) hneg).2 hm
    · rwa [update_of_ne hbk]
  · rwa [update_of_ne hpg]

theorem inv_cunmount {pg : Nat} {mnt : Loc} {mounted : Option Loc} (hI : Inv s) :
    Inv (cunmount pg mnt mounted s).2 := by
  obtain ⟨own, hs, fs, hok, hfull⟩ := hI
  by_cases hno : ∀ m, (s.lookup pg mnt).2 = some m → ∃ c, mounted = some c ∧ (fs m).find? (isMounted s c) = none
  · rw [(cunmount_error hok hno).1]
    exact ⟨own, hs, fs, hok, hfull⟩
  push Not at hno
  obtain ⟨m, hm, hfind⟩ := hno
  obtain ⟨-, hframe, hok', -⟩ := cunmount_spec hok hm hfind
  refine ⟨own, _, _, hok', fun pg' hpg' m' hm' => ?_⟩
  rw [hframe.groups.1] at hpg'
  by_cases hnil : remaining s mounted (fs m) = []
  · rw [if_pos hnil] at hm'
    have hmm : m' ≠ m := fun heq => not_mem_dropHead hok hm (heq ▸ hm')
    rw [update_of_ne hmm]
    exact hfull pg' hpg' m' (headsOf_dropHead hm')
  rw [if_neg hnil] at hm'
  by_cases hmm : m' = m
  · rw [hmm, update_self]
    exact hnil
  · rw [update_of_ne hmm]
    exact hfull pg' hpg' m' hm'

theorem inv_closepgrp {pg : Nat} (hI : Inv s) : Inv (closepgrp pg s) := by
  obtain ⟨own, hs, fs, hok, hfull⟩ := hI
  obtain ⟨hok', href, -⟩ := closepgrp_spec pg hok
  refine ⟨own, hs, _, hok', fun pg' hpg' m hm => ?_⟩
  rw [href] at hpg'
  have hnot : ¬ (s.ref pg ≤ 1 ∧ m ∈ headsOf hs pg) := by
    rintro ⟨hle, hmem⟩
    obtain rfl : pg' = pg := by rw [← hok.own_eq hm, hok.own_eq hmem]
    rw [update_self] at hpg'
    omega
  unfold closed
  rw [if_neg hnot]
  refine hfull pg' ?_ m hm
  by_cases hpg : pg' = pg
  · subst hpg
    rw [update_self] at hpg'
    omega
  · rwa [update_of_ne hpg] at hpg'

theorem inv_newpgrp (hI : Inv s) : Inv (newpgrp s) := by
  obtain ⟨own, hs, fs, hok, hfull⟩ := hI
  obtain ⟨hok', -, href⟩ := newpgrp_spec hok
  refine ⟨own, _, fs, hok', fun pg hpg m hm => ?_⟩
  by_cases hnew : pg = s.npgrp
  · subst hnew
    simp [headsOf] at hm
  · rw [href, update_of_ne hnew] at hpg
    simp only [headsOf, update_of_ne hnew] at hm
    exact hfull pg hpg m hm

theorem copyRows_nil_iff (room : Nat) {rows : List Row} (hne : ∀ row ∈ rows, row.2 ≠ []) :
    (∃ row ∈ (copyRows room rows).2.1, row.2 = []) ↔
      ∃ xs row ys, rows = xs ++ row :: ys ∧ room = (xs.map fun r => r.2.length + 1).sum + 1 := by
  induction rows generalizing room with
  | nil => simp [copyRows]
  | cons row rows ih =>
    obtain ⟨a, ms⟩ := row
    have hms : ms ≠ [] := hne (a, ms) (by simp)
    have hpos := length_pos_iff.2 hms
    have ih := ih (room - 1 - ms.length) fun r hr => hne r (by simp [hr])
    -- the first row, or one after it
    have hcons : (∃ xs row ys, (a, ms) :: rows = xs ++ row :: ys ∧ room = (xs.map fun r => r.2.length + 1).sum + 1) ↔
        room = 1 ∨ ∃ xs row ys, rows = xs ++ row :: ys ∧
          room = ms.length + 1 + ((xs.map fun r => r.2.length + 1).sum + 1) := by
      constructor
      · rintro ⟨xs, row, ys, heq, hroom⟩
        cases xs with
        | nil => exact .inl hroom
        | cons x xs =>
          obtain ⟨rfl, htl⟩ := List.cons.inj heq
          refine .inr ⟨xs, row, ys, htl, ?_⟩
          rw [hroom, map_cons, sum_cons, add_assoc]
      · rintro (rfl | ⟨xs, row, ys, rfl, hroom⟩)
        · exact ⟨[], (a, ms), rows, rfl, rfl⟩
        · refine ⟨(a, ms) :: xs, row, ys, rfl, ?_⟩
          rw [hroom, map_cons, sum_cons, ← add_assoc]
    rw [hcons]
    unfold copyRows
    by_cases hroom : room = 0
    · rw [if_pos hroom]
      constructor
      · rintro ⟨row, hrow, -⟩
        cases hrow
      · rintro (h | ⟨xs, -, -, -, h⟩) <;> omega
    rw [if_neg hroom]
    by_cases hlen : ms.length ≤ room - 1
    · rw [if_pos hlen]
      constructor
      · rintro ⟨row, hrow, hnil⟩
        rcases mem_cons.1 hrow with rfl | hrow
        · exact absurd hnil hms
        · obtain ⟨xs, row', ys, heq, hr⟩ := ih.1 ⟨row, hrow, hnil⟩
          exact .inr ⟨xs, row', ys, heq, by omega⟩
      · rintro (h | ⟨xs, row, ys, heq, hr⟩)
        · omega
        · obtain ⟨row', hrow', hnil⟩ := ih.2 ⟨xs, row, ys, heq, by omega⟩
          exact ⟨row', mem_cons_of_mem _ hrow', hnil⟩
    rw [if_neg hlen]
    constructor
    · rintro ⟨row, hrow, hnil⟩
      rw [mem_singleton.1 hrow] at hnil
      have : room - 1 = 0 := by
        by_contra h
        simp [hms, h] at hnil
      exact .inl (by omega)
    · rintro (rfl | ⟨xs, -, -, -, h⟩)
      · exact ⟨(a, []), by simp, rfl⟩
      · omega

theorem rows_ne_nil {pg : Nat} (hfull : Full s hs fs) (hpg : s.ref pg ≠ 0) :
    ∀ row ∈ rowsOf s hs fs pg, row.2 ≠ [] := by
  intro row hrow
  obtain ⟨m, hm, rfl⟩ := mem_map.1 hrow
  exact hfull pg hpg m hm

section
variable {room topg frmpg : Nat} {env : Nat → List Newmount}

variable (room env) in
theorem pgrpcpy_full (hok : Ok s own hs fs) (hfull : Full s hs fs) (hfrm : s.ref frmpg ≠ 0) (hto : s.ref topg ≠ 0)
    (hpg : frmpg ≠ topg) (hclear : s.clear topg = true) (hroom : s.room = room) :
    ∃ own' hs' fs', Ok (pgrpcpy env topg frmpg s).2 own' hs' fs' ∧ (pgrpcpy env topg frmpg s).2.ref = s.ref ∧
      (FirstMounts s (.pgrpcpy room env topg frmpg) ↔ Full (pgrpcpy env topg frmpg s).2 hs' fs') := by
  obtain ⟨own', hs', fs', hok', hframe, hkeep, hother, hrows, -, -⟩ := pgrpcpy_spec env hok hpg hclear
  refine ⟨own', hs', fs', hok', hframe.groups.1, ?_⟩
  have hnil := copyRows_nil_iff s.room (rows_ne_nil hfull hfrm)
  rw [hroom] at hnil hrows
  unfold FirstMounts
  dsimp only
  rw [hok.rows_eq]
  have hcopy : (∃ m ∈ headsOf hs' topg, fs' m = []) ↔ ∃ row ∈ (copyRows room (rowsOf s hs fs frmpg)).2.1,
    row.2 = [] := by
    constructor
    · rintro ⟨m, hm, hmnil⟩
      have hrow : (pgrpcpy env topg frmpg s).2.row fs' m ∈ rowsOf (pgrpcpy env topg frmpg s).2 hs' fs' topg :=
        mem_map_of_mem hm
      rw [hrows] at hrow
      obtain ⟨row, hrow, heq⟩ := mem_map.1 hrow
      refine ⟨row, hrow, ?_⟩
      have hmap : row.2.map (pgrpcpy env topg frmpg s).2.cp = fs' m := congrArg Prod.snd heq
      rwa [hmnil, map_eq_nil_iff] at hmap
    · rintro ⟨row, hrow, hrnil⟩
      have hrow' := mem_map_of_mem (f := Row.map (pgrpcpy env topg frmpg s).2.cp) hrow
      rw [← hrows] at hrow'
      obtain ⟨m, hm, heq⟩ := mem_map.1 hrow'
      refine ⟨m, hm, ?_⟩
      have hmap : fs' m = row.2.map (pgrpcpy env topg frmpg s).2.cp := congrArg Prod.snd heq
      rw [hmap, hrnil, map_nil]
  constructor
  · intro hG pg hpg' m hm hmnil
    rw [hframe.groups.1] at hpg'
    by_cases htop : pg = topg
    · subst htop
      obtain ⟨xs, row, ys, heq, hr⟩ := hnil.1 (hcopy.1 ⟨m, hm, hmnil⟩)
      exact hG xs row ys heq hr
    · have hm₀ : m ∈ headsOf hs pg := by
        unfold headsOf at hm ⊢
        rwa [hother pg htop] at hm
      rw [(hkeep m (hok.lt_of_headsOf hm₀)).1] at hmnil
      exact hfull pg hpg' m hm₀ hmnil
  · intro hfull' xs row ys heq hr
    obtain ⟨m, hm, hmnil⟩ := hcopy.2 (hnil.2 ⟨xs, row, ys, heq, hr⟩)
    exact hfull' topg (by rwa [hframe.groups.1]) m hm hmnil

end

theorem Inv.room (hI : Inv s) (room : Nat) : Inv { s with room := room } := by
  obtain ⟨own, hs, fs, hok, hfull⟩ := hI
  exact ⟨own, hs, fs, hok.congr rfl rfl rfl (fun _ => rfl) rfl, hfull⟩

theorem ref_ne_zero {pg : Nat} (h : s.open pg = true) : s.ref pg ≠ 0 := by
  unfold St.open at h
  rw [Bool.and_eq_true] at h
  simpa using h.1

theorem inv_step {a : Act} (hI : Inv s) (hG : FirstMounts s a) (hs : step s a = some s') : Inv s' := by
  cases a with
  | newpgrp =>
    cases hs
    exact inv_newpgrp hI
  | incref pg =>
    simp only [step, ite_none_right_eq_some] at hs
    obtain ⟨hpg, hs⟩ := hs
    cases hs
    obtain ⟨own, hs, fs, hok, hfull⟩ := hI
    refine ⟨own, hs, fs, hok.congr rfl rfl rfl (fun _ => rfl) rfl, fun pg' hpg' => hfull pg' ?_⟩
    by_cases heq : pg' = pg
    · rwa [heq]
    · dsimp only at hpg'
      rwa [update_of_ne heq] at hpg'
  | closepgrp pg =>
    simp only [step, ite_none_right_eq_some] at hs
    cases hs.2
    exact inv_closepgrp hI
  | cmount room pg new old umh flag spec =>
    simp only [step, ite_none_right_eq_some] at hs
    cases hs.2
    exact inv_cmount room (hI.room room) rfl hG
  | cunmount pg mnt mounted =>
    simp only [step, ite_none_right_eq_some] at hs
    cases hs.2
    exact inv_cunmount hI
  | newmount n =>
    cases hs
    obtain ⟨own, hs, fs, hok, hfull⟩ := hI
    have halloc : Alloc s (others [n] s) := Alloc.refl.others [n]
    exact ⟨own, hs, fs, halloc.ok hok, fun pg hpg => hfull pg (by rwa [halloc.groups.1] at hpg)⟩
  | pgrpcpy room env topg frmpg =>
    simp only [step, ite_none_right_eq_some] at hs
    obtain ⟨⟨hfrm, hto, hpg, hclear⟩, hs⟩ := hs
    cases hs
    obtain ⟨own, hs, fs, hok, hfull⟩ := hI.room room
    obtain ⟨own', hs', fs', hok', -, hiff⟩ := pgrpcpy_full room env hok hfull (ref_ne_zero hfrm)
      (ref_ne_zero hto) hpg hclear rfl
    exact ⟨own', hs', fs', hok', hiff.1 hG⟩

theorem not_safe_step {a : Act} (hI : Inv s) (hG : ¬ FirstMounts s a) (hs : step s a = some s') : ¬ Safe s' := by
  cases a with
  | cmount room pg new old umh flag spec =>
    simp only [step, ite_none_right_eq_some] at hs
    obtain ⟨⟨hpg, -⟩, hs⟩ := hs
    cases hs
    exact not_safe_cmount room (hI.room room) rfl (ref_ne_zero hpg) hG
  | pgrpcpy room env topg frmpg =>
    simp only [step, ite_none_right_eq_some] at hs
    obtain ⟨⟨hfrm, hto, hpg, hclear⟩, hs⟩ := hs
    cases hs
    obtain ⟨own, hs, fs, hok, hfull⟩ := hI.room room
    obtain ⟨own', hs', fs', hok', href, hiff⟩ := pgrpcpy_full room env hok hfull (ref_ne_zero hfrm)
      (ref_ne_zero hto) hpg hclear rfl
    intro hsafe
    refine hG (hiff.2 fun pg hpg' m hm => hok'.ne_nil_of_safe hsafe hpg' hm)
  | newpgrp => exact absurd trivial hG
  | incref pg => exact absurd trivial hG
  | closepgrp pg => exact absurd trivial hG
  | cunmount pg mnt mounted => exact absurd trivial hG
  | newmount n => exact absurd trivial hG

theorem inv_init : Inv init := by
  refine ⟨fun _ => 0, fun _ _ => [], fun _ => [], ⟨fun _ _ => rfl, nofun, fun _ _ => nodup_nil, fun _ => rfl,
    nofun,
    fun _ _ => rfl⟩, fun pg hpg => absurd rfl hpg⟩

/-- Over every run from no name space, exactly if `newmount` never fails for the first mount of a new `Mhead`. -/
theorem always_safe_iff {as : List Act} : Always step Safe init as ↔ Along step FirstMounts init as :=
  always_iff_along (I := Inv) (fun _ => inv_safe) (fun _ _ _ hI hG hs => inv_step hI hG hs)
    (fun _ _ _ hI hG hs => not_safe_step hI hG hs) inv_init

def chanA : Chan := ⟨1, ⟨1, 0, 0⟩, true, none⟩

def chanB : Chan := ⟨2, ⟨2, 0, 0⟩, true, none⟩

/-- There is no memory for the first mount of a mount point: its `Mhead` is in the table all the same, and a walk
over it goes through nil. -/
theorem not_safe_noMemory : ¬ ∀ as, Always step Safe init as := by
  intro h
  let s' : St := (cmount 0 chanB chanA none MREPL none { newpgrp init with room := 0 }).2
  have hrun : run step init [.newpgrp, .cmount 0 0 chanB chanA none MREPL none] = some s' := rfl
  have hnil : findmount 0 chanA.loc s' = .nilptr := rfl
  have href : s'.ref 0 ≠ 0 := by decide
  exact ((h _).last hrun 0 href).2 chanA.loc hnil

end Node9.Mounts
