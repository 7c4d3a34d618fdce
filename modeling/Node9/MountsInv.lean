import Node9.Mounts

/-!
# The lists of a name space

`Ok own hs fs`: the bucket `i` of the group `pg` is the list `hs pg i`, and the mounts of the `Mhead` `m` are the
list `fs m`. Every `Mhead` knows its bucket by the channel it is from, and `own` says which group it is of, so
that no two buckets share an `Mhead`; every `Mount` knows its `Mhead`, so that no two of those share a `Mount`.
-/

namespace Node9.Mounts
open Linked Function
open List hiding Chain

structure Member where
  toc : Chan
  mflag : BitVec 32
  spec : Option String
deriving DecidableEq

def St.member (s : St) (f : Nat) : Member := ⟨(s.mount f).toc, (s.mount f).mflag, (s.mount f).spec⟩

def St.id (s : St) (f : Nat) : Nat := (s.mount f).mountid

/-- `f` has an id that it was given, and has not been freed. -/
def St.given (s : St) (f : Nat) : Prop := ∃ k, 0 < k ∧ k ≤ s.mountid ∧ s.id f = toUlong k

/-- The mounts in the lists have not been freed. -/
def Given (s : St) (fs : Nat → List Nat) : Prop := ∀ m, ∀ f ∈ fs m, s.given f

/-- The channel that `m` is mounted upon. -/
def St.loc (s : St) (m : Nat) : Loc := (s.head m).frm.loc

structure Ok (s : St) (own : Nat → Nat) (hs : Nat → Nat → List Nat) (fs : Nat → List Nat) : Prop where
  hash : ∀ pg i, Chain s.hash .hash (.bucket pg i) (hs pg i)
  bucket : ∀ pg i, ∀ m ∈ hs pg i, own m = pg ∧ MOUNTH (s.loc m) = i ∧ m < s.fresh
  inj : ∀ pg i, ((hs pg i).map s.loc).Nodup
  next : ∀ m, Chain s.next .next (.mount m) (fs m)
  heads : ∀ m, ∀ f ∈ fs m, (s.mount f).head = m ∧ f < s.fresh
  new : ∀ m, s.fresh ≤ m → fs m = []

theorem eqchan_iff {a b : Loc} : eqchan a b = true ↔ a = b := by
  cases a
  cases b
  simp [eqchan, and_assoc]

theorem MOUNTH_lt (a : Loc) : MOUNTH a < MNTHASH := by
  have h : MOUNTH a ≤ MNTHASH - 1 := Nat.and_le_right
  exact Nat.lt_of_le_sub_one (by decide) h

theorem hash_injective : Injective HCell.hash := fun _ _ h => HCell.hash.inj h

theorem mount_ne_next {m f : Nat} : MCell.mount m ≠ .next f := nofun

theorem next_injective : Injective MCell.next := fun _ _ h => MCell.next.inj h

variable {s s' : St} {own : Nat → Nat} {hs : Nat → Nat → List Nat} {fs : Nat → List Nat}

namespace Ok
variable {pg i m f : Nat} {old : Loc}

section
variable (h : Ok s own hs fs)
include h

theorem length_hs_le : (hs pg i).length ≤ s.fresh := by
  have hsub : hs pg i ⊆ range s.fresh := fun m hm => mem_range.2 (h.bucket pg i m hm).2.2
  simpa using (subperm_of_subset (h.hash pg i).nodup hsub).length_le

theorem length_fs_le : (fs m).length ≤ s.fresh := by
  have hsub : fs m ⊆ range s.fresh := fun f hf => mem_range.2 (h.heads m f hf).2
  simpa using (subperm_of_subset (h.next m).nodup hsub).length_le

theorem hs_eq_nil (hi : MNTHASH ≤ i) : hs pg i = [] := by
  rw [eq_nil_iff_forall_not_mem]
  intro m hm
  have := MOUNTH_lt (s.loc m)
  rw [(h.bucket pg i m hm).2.1] at this
  omega

theorem lookup_eq : s.lookup pg old =
    (endCell .hash (.bucket pg (MOUNTH old)) ((hs pg (MOUNTH old)).takeWhile fun m => !eqchan (s.loc m) old),
      (hs pg (MOUNTH old)).find? fun m => eqchan (s.loc m) old) :=
  (h.hash pg _).seek_eq (Nat.lt_succ_of_le h.length_hs_le)

theorem lookup_some (hm : (s.lookup pg old).2 = some m) :
    m ∈ hs pg (MOUNTH old) ∧ s.loc m = old := by
  rw [h.lookup_eq] at hm
  have hp := find?_some (p := fun m => eqchan (s.loc m) old) hm
  exact ⟨mem_of_find?_eq_some hm, eqchan_iff.1 hp⟩

theorem lookup_none (hm : (s.lookup pg old).2 = none) :
    (s.lookup pg old).1 = endCell .hash (.bucket pg (MOUNTH old)) (hs pg (MOUNTH old)) ∧
      old ∉ (hs pg (MOUNTH old)).map s.loc := by
  rw [h.lookup_eq] at hm ⊢
  have hne : ∀ m ∈ hs pg (MOUNTH old), ¬ eqchan (s.loc m) old = true := find?_eq_none.1 hm
  refine ⟨?_, ?_⟩
  · rw [takeWhile_eq_self_iff.2 fun m hm => by simpa using hne m hm]
  · intro hmem
    obtain ⟨m, hm, heq⟩ := mem_map.1 hmem
    exact hne m hm (eqchan_iff.2 heq)

theorem lookup_of_mem (hm : m ∈ hs pg i) : (s.lookup pg (s.loc m)).2 = some m := by
  obtain ⟨-, rfl, -⟩ := h.bucket pg i m hm
  cases hlook : (s.lookup pg (s.loc m)).2 with
  | none => exact absurd (mem_map_of_mem hm) (h.lookup_none hlook).2
  | some m' =>
    obtain ⟨hm', heq⟩ := h.lookup_some hlook
    rw [inj_on_of_nodup_map (h.inj pg _) hm' hm heq]

end

theorem congr (h : Ok s own hs fs) (hhash : s'.hash = s.hash) (hnext : s'.next = s.next) (hloc : s'.loc = s.loc)
    (hhead : ∀ f, (s'.mount f).head = (s.mount f).head) (hfresh : s'.fresh = s.fresh) : Ok s' own hs fs := by
  constructor
  · rw [hhash]
    exact h.hash
  · rw [hloc, hfresh]
    exact h.bucket
  · rw [hloc]
    exact h.inj
  · rw [hnext]
    exact h.next
  · simp only [hhead, hfresh]
    exact h.heads
  · rw [hfresh]
    exact h.new

theorem setList (next : MCell → Option Nat) (ys : List Nat) (h : Ok s own hs fs) (hm : m < s.fresh)
    (hch : Chain next .next (.mount m) ys) (hys : ∀ f ∈ ys, (s.mount f).head = m ∧ f < s.fresh)
    (hmount : ∀ m', m' ≠ m → next (.mount m') = s.next (.mount m'))
    (hnext : ∀ f, (s.mount f).head ≠ m → next (.next f) = s.next (.next f)) :
    Ok { s with next := next } own hs (update fs m ys) := by
  refine ⟨h.hash, h.bucket, h.inj, fun m' => ?_, fun m' => ?_, fun m' hm' => ?_⟩
  · by_cases hmm : m' = m
    · subst hmm
      rw [update_self]
      exact hch
    · rw [update_of_ne hmm]
      refine (h.next m').congr (hmount m' hmm) fun f hf => hnext f ?_
      rw [(h.heads m' f hf).1]
      exact hmm
  · by_cases hmm : m' = m
    · subst hmm
      rw [update_self]
      exact hys
    · rw [update_of_ne hmm]
      exact h.heads m'
  · have hmm : m' ≠ m := by
      rintro rfl
      exact absurd hm (Nat.not_lt.2 hm')
    rw [update_of_ne hmm]
    exact h.new m' hm'

theorem addHead {frm : Chan} (h : Ok s own hs fs) (hnew : frm.loc ∉ (hs pg (MOUNTH frm.loc)).map s.loc) :
    Ok { newmhead frm s with
        hash := update (newmhead frm s).hash
          (endCell .hash (.bucket pg (MOUNTH frm.loc)) (hs pg (MOUNTH frm.loc))) (some s.fresh) }
      (update own s.fresh pg)
      (update hs pg (update (hs pg) (MOUNTH frm.loc) (hs pg (MOUNTH frm.loc) ++ [s.fresh]))) fs := by
  have hnot : ∀ pg i, s.fresh ∉ hs pg i := fun pg i hm => absurd (h.bucket pg i _ hm).2.2 (lt_irrefl _)
  have hloc : ∀ m, m ≠ s.fresh → (newmhead frm s).loc m = s.loc m := by
    intro m hm
    simp [St.loc, newmhead, update_of_ne hm]
  have hself : (newmhead frm s).loc s.fresh = frm.loc := by simp [St.loc, newmhead]
  have hcomm : update (newmhead frm s).hash
        (endCell .hash (.bucket pg (MOUNTH frm.loc)) (hs pg (MOUNTH frm.loc))) (some s.fresh) =
      update (update s.hash
        (endCell .hash (.bucket pg (MOUNTH frm.loc)) (hs pg (MOUNTH frm.loc))) (some s.fresh))
          (.hash s.fresh) none := by
    refine update_comm ?_ _ _ _
    intro heq
    unfold endCell at heq
    cases hlast : (hs pg (MOUNTH frm.loc)).getLast? with
    | none =>
      rw [hlast] at heq
      cases heq
    | some m =>
      rw [hlast] at heq
      cases heq
      exact hnot _ _ (mem_of_getLast? hlast)
  have hcase : ∀ pg' i', update hs pg (update (hs pg) (MOUNTH frm.loc)
        (hs pg (MOUNTH frm.loc) ++ [s.fresh])) pg' i' =
      if pg' = pg ∧ i' = MOUNTH frm.loc then hs pg (MOUNTH frm.loc) ++ [s.fresh] else hs pg' i' := by
    intro pg' i'
    by_cases hpg : pg' = pg
    · subst hpg
      by_cases hi : i' = MOUNTH frm.loc <;> simp [hi]
    · simp [hpg]
  refine ⟨fun pg' i' => ?_, fun pg' i' => ?_, fun pg' i' => ?_, fun m => ?_, fun m f hf => ?_, fun m hm => ?_⟩
  · rw [hcase]
    dsimp only
    rw [hcomm]
    split
    · next hbk =>
      obtain ⟨rfl, rfl⟩ := hbk
      exact (h.hash pg' _).snoc (by simp) (hnot _ _) hash_injective (by simp)
    next hbk =>
    refine (h.hash pg' i').congr ?_ fun m hm => ?_
    · rw [update_of_ne (by simp), update_of_ne]
      unfold endCell
      cases (hs pg (MOUNTH frm.loc)).getLast? with
      | none => exact fun heq => hbk (by cases heq; exact ⟨rfl, rfl⟩)
      | some m => simp
    have hmf : HCell.hash m ≠ .hash s.fresh := fun heq => hnot pg' i' (by cases heq; exact hm)
    rw [update_of_ne hmf, update_of_ne]
    unfold endCell
    cases hlast : (hs pg (MOUNTH frm.loc)).getLast? with
    | none => simp
    | some m' =>
      intro heq
      cases heq
      obtain ⟨rfl, rfl, -⟩ := h.bucket pg' i' m hm
      obtain ⟨rfl, hi, -⟩ := h.bucket pg _ m (mem_of_getLast? hlast)
      exact hbk ⟨rfl, hi⟩
  · rw [hcase]
    split
    · next hbk =>
      obtain ⟨rfl, rfl⟩ := hbk
      intro m hm
      rcases mem_append.1 hm with hm | hm
      · have hne : m ≠ s.fresh := fun heq => hnot _ _ (heq ▸ hm)
        obtain ⟨howm, hb, hlt⟩ := h.bucket _ _ m hm
        rw [update_of_ne hne]
        exact ⟨howm, (congrArg MOUNTH (hloc m hne)).trans hb, Nat.lt_succ_of_lt hlt⟩
      · rw [mem_singleton.1 hm, update_self]
        exact ⟨rfl, congrArg MOUNTH hself, Nat.lt_succ_self _⟩
    · intro m hm
      have hne : m ≠ s.fresh := fun heq => hnot _ _ (heq ▸ hm)
      obtain ⟨howm, hb, hlt⟩ := h.bucket _ _ m hm
      rw [update_of_ne hne]
      exact ⟨howm, (congrArg MOUNTH (hloc m hne)).trans hb, Nat.lt_succ_of_lt hlt⟩
  · have hmap : (hs pg' i').map (newmhead frm s).loc = (hs pg' i').map s.loc :=
      map_congr_left fun m hm => hloc m fun heq => hnot _ _ (heq ▸ hm)
    rw [hcase]
    split
    · next hbk =>
      obtain ⟨rfl, rfl⟩ := hbk
      change ((hs pg' (MOUNTH frm.loc) ++ [s.fresh]).map (newmhead frm s).loc).Nodup
      rw [map_append, hmap, map_singleton, hself, ← concat_eq_append]
      exact (h.inj _ _).concat hnew
    · change ((hs pg' i').map (newmhead frm s).loc).Nodup
      rw [hmap]
      exact h.inj _ _
  · have hnext : ∀ f, (newmhead frm s).next (.next f) = s.next (.next f) := fun f => by
      simp [newmhead]
    refine (h.next m).congr ?_ fun f _ => hnext f
    by_cases hm : m = s.fresh
    · subst hm
      have hnil : s.next (.mount s.fresh) = none := by
        have := h.next s.fresh
        rwa [h.new _ (le_refl _)] at this
      rw [hnil]
      simp [newmhead]
    · simp [newmhead, hm]
  · exact ⟨(h.heads m f hf).1, Nat.lt_succ_of_lt (h.heads m f hf).2⟩
  · exact h.new m (Nat.le_of_succ_le hm)

end Ok

theorem loc_eq_of_head (h : s'.head = s.head) : s'.loc = s.loc :=
  funext fun m => by rw [St.loc, St.loc, h]

/-- Mounts have been allocated, and are in no list. -/
structure Alloc (s s' : St) : Prop where
  hash : s'.hash = s.hash
  head : s'.head = s.head
  groups : s'.ref = s.ref ∧ s'.wlocked = s.wlocked ∧ s'.npgrp = s.npgrp
  fresh : s.fresh ≤ s'.fresh
  mount : ∀ f < s.fresh, s'.mount f = s.mount f
  first : ∀ m, s'.next (.mount m) = s.next (.mount m)
  next : ∀ f < s.fresh, s'.next (.next f) = s.next (.next f)
  ids : s.mountid ≤ s'.mountid

theorem St.given.mono {f : Nat} (h : s.given f) (hid : s'.id f = s.id f) (hle : s.mountid ≤ s'.mountid) :
    s'.given f := by
  obtain ⟨k, hk, hlek, hidk⟩ := h
  exact ⟨k, hk, le_trans hlek hle, hid.trans hidk⟩

namespace Alloc

theorem refl : Alloc s s :=
  ⟨rfl, rfl, ⟨rfl, rfl, rfl⟩, le_refl _, fun _ _ => rfl, fun _ => rfl, fun _ _ => rfl, le_refl _⟩

theorem given {f : Nat} (h : Alloc s s') (hf : f < s.fresh) (hg : s.given f) : s'.given f :=
  hg.mono (by rw [St.id, h.mount f hf, St.id]) h.ids

theorem ok (h : Alloc s s') (hok : Ok s own hs fs) : Ok s' own hs fs := by
  have hloc : s'.loc = s.loc := loc_eq_of_head h.head
  refine ⟨?_, fun pg i m hm => ?_, ?_, fun m => ?_, fun m f hf => ?_, fun m hm => ?_⟩
  · rw [h.hash]
    exact hok.hash
  · obtain ⟨howm, hb, hlt⟩ := hok.bucket pg i m hm
    rw [hloc]
    exact ⟨howm, hb, lt_of_lt_of_le hlt h.fresh⟩
  · rw [hloc]
    exact hok.inj
  · exact (hok.next m).congr (h.first m) fun f hf => h.next f (hok.heads m f hf).2
  · obtain ⟨hhead, hlt⟩ := hok.heads m f hf
    rw [h.mount f hlt]
    exact ⟨hhead, lt_of_lt_of_le hlt h.fresh⟩
  · exact hok.new m (le_trans h.fresh hm)

theorem putmount {s₁ : St} {mh : Nat} {toc : Chan} {flag : BitVec 32} {spec : Option String} (h : Alloc s s₁) :
    Alloc s (putmount mh toc flag spec s₁) where
  hash := h.hash
  head := h.head
  groups := h.groups
  fresh := Nat.le_succ_of_le h.fresh
  mount f hf := by
    have hne : f ≠ s₁.fresh := ne_of_lt (lt_of_lt_of_le hf h.fresh)
    rw [← h.mount f hf]
    exact update_of_ne hne _ _
  first m := by
    rw [← h.first m]
    show update s₁.next (.next s₁.fresh) none (.mount m) = s₁.next (.mount m)
    exact update_of_ne mount_ne_next _ _
  next f hf := by
    have hne : f ≠ s₁.fresh := ne_of_lt (lt_of_lt_of_le hf h.fresh)
    rw [← h.next f hf]
    exact update_of_ne (by simpa using hne) _ _
  ids := Nat.le_succ_of_le h.ids

theorem store {s₁ : St} {g : Nat} {v : Option Nat} (h : Alloc s s₁) (hg : s.fresh ≤ g) :
    Alloc s { s₁ with next := update s₁.next (.next g) v } where
  hash := h.hash
  head := h.head
  groups := h.groups
  fresh := h.fresh
  mount := h.mount
  first m := by
    rw [← h.first m]
    show update s₁.next (.next g) v (.mount m) = s₁.next (.mount m)
    exact update_of_ne mount_ne_next _ _
  next f hf := by
    have hne : f ≠ g := ne_of_lt (lt_of_lt_of_le hf hg)
    rw [← h.next f hf]
    exact update_of_ne (by simpa using hne) _ _
  ids := h.ids

end Alloc

theorem Alloc.lists {fs : Nat → List Nat} (h : Alloc s s') (hok : Ok s own hs fs) (hg : Given s fs) : Given s' fs :=
  fun m f hf => h.given (hok.heads m f hf).2 (hg m f hf)

/-- What `copyUnion` makes of a mount. -/
def St.copied (s : St) (flg : BitVec 32) (u : Nat) : Member := ⟨(s.mount u).toc, flg, (s.mount u).spec⟩

theorem copyUnion_spec {s₁ : St} {m n g : Nat} (flg : BitVec 32) {v : Option Nat} {us : List Nat}
    (halloc : Alloc s s₁) (hg : s.fresh ≤ g) (hg₁ : g < s₁.fresh) (hnil : s₁.next (.next g) = none)
    (hv : From s₁.next .next v us) (hus : ∀ u ∈ us, u < s.fresh) (hn : us.length ≤ n) :
    let r := copyUnion m flg n v (.next g) s₁
    Alloc s r.2 ∧ (r.1 = true ↔ us.length ≤ s₁.room) ∧ (∀ f < s₁.fresh, r.2.mount f = s₁.mount f) ∧
      (r.1 = true → Chain r.2.next .next (.next g) (range' s₁.fresh us.length) ∧
        (∀ f < s₁.fresh, f ≠ g → r.2.next (.next f) = s₁.next (.next f)) ∧ r.2.fresh = s₁.fresh + us.length ∧
        (∀ f ∈ range' s₁.fresh us.length, (r.2.mount f).head = m ∧ r.2.given f) ∧
        (range' s₁.fresh us.length).map r.2.member = us.map (s.copied flg)) ∧ s₁.mountid ≤ r.2.mountid := by
  induction us generalizing s₁ n g v with
  | nil =>
    have hv : v = none := hv
    subst hv
    have hr : copyUnion m flg n none (.next g) s₁ = (true, s₁) := by cases n <;> rfl
    rw [hr]
    exact ⟨halloc, by simp, fun _ _ => rfl, fun _ => ⟨hnil, fun _ _ _ => rfl, rfl, by simp, by simp⟩, le_refl _⟩
  | cons u us ih =>
    obtain ⟨rfl, hv⟩ := hv
    cases n with
    | zero => simp at hn
    | succ n =>
      have hu := hus u (by simp)
      by_cases hroom : s₁.room = 0
      · simp only [copyUnion, newmount, hroom, ↓reduceIte]
        exact ⟨halloc, by simp, fun _ _ => trivial, nofun, le_refl _⟩
      generalize hs₂ : ({ putmount m (s₁.mount u).toc flg (s₁.mount u).spec { s₁ with room := s₁.room - 1 } with
          next := update (putmount m (s₁.mount u).toc flg (s₁.mount u).spec s₁).next (.next g)
            (some s₁.fresh) } : St) = s₂
      have hstep : copyUnion m flg (n + 1) (some u) (.next g) s₁ =
          copyUnion m flg n (s₂.next (.next u)) (.next s₁.fresh) s₂ := by
        rw [← hs₂]
        simp only [copyUnion, newmount, hroom, ↓reduceIte]
        rfl
      have halloc₂ : Alloc s s₂ := by
        have hrm : Alloc s { s₁ with room := s₁.room - 1 } := { halloc with }
        rw [← hs₂]
        exact (hrm.putmount).store hg
      have hgf : MCell.next s₁.fresh ≠ .next g := by simpa using Nat.ne_of_gt hg₁
      have hnext₂ : ∀ f, f ≠ s₁.fresh → f ≠ g → s₂.next (.next f) = s₁.next (.next f) := by
        intro f hf hfg
        rw [← hs₂]
        dsimp only [putmount]
        rw [update_of_ne (by simpa using hfg), update_of_ne (by simpa using hf)]
      have hg₂ : s₂.next (.next g) = some s₁.fresh := by
        rw [← hs₂]
        exact update_self _ _ _
      have hnil₂ : s₂.next (.next s₁.fresh) = none := by
        rw [← hs₂]
        dsimp only [putmount]
        rw [update_of_ne hgf, update_self]
      have hmount₂ : ∀ f < s₁.fresh, s₂.mount f = s₁.mount f := by
        intro f hf
        rw [← hs₂]
        exact update_of_ne (ne_of_lt hf) _ _
      have hnew₂ : s₂.mount s₁.fresh = ⟨toUlong (s₁.mountid + 1), m, none, (s₁.mount u).toc, flg,
        (s₁.mount u).spec⟩ := by
        rw [← hs₂]
        exact update_self _ _ _
      have hfresh₂ : s₂.fresh = s₁.fresh + 1 := by rw [← hs₂]; rfl
      have hroom₂ : s₂.room = s₁.room - 1 := by rw [← hs₂]; rfl
      have hid₂ : s₂.mountid = s₁.mountid + 1 := by rw [← hs₂]; rfl
      have hold : ∀ f < s.fresh, s₂.next (.next f) = s₁.next (.next f) := fun f hf =>
        hnext₂ f (ne_of_lt (lt_of_lt_of_le hf halloc.fresh)) (ne_of_lt (lt_of_lt_of_le hf hg))
      have hv₂ : From s₂.next .next (s₂.next (.next u)) us := by
        rw [hold u hu]
        exact hv.congr fun f hf => hold f (hus f (by simp [hf]))
      obtain ⟨hA, hiff, hkeep, hdone, hids⟩ := ih (n := n) halloc₂ halloc.fresh (by omega) hnil₂ hv₂
        (fun f hf => hus f (by simp [hf])) (by simpa using hn)
      rw [hstep]
      rw [hfresh₂] at hkeep hdone
      refine ⟨hA, hiff.trans ?_, fun f hf => ?_, fun hr => ?_, by omega⟩
      · rw [length_cons, hroom₂]
        omega
      · rw [hkeep f (Nat.lt_succ_of_lt hf), hmount₂ f hf]
      obtain ⟨hch, hnext, hfr, hheads, hmem⟩ := hdone hr
      have hkf := hkeep s₁.fresh (Nat.lt_succ_self _)
      rw [length_cons, range'_succ]
      refine ⟨⟨?_, hch⟩, fun f hf hfg => ?_, by omega, fun f hf => ?_, ?_⟩
      · rw [hnext g (Nat.lt_succ_of_lt hg₁) (ne_of_lt hg₁), hg₂]
      · rw [hnext f (Nat.lt_succ_of_lt hf) (ne_of_lt hf), hnext₂ f (ne_of_lt hf) hfg]
      · rcases mem_cons.1 hf with rfl | hf
        · rw [hkf, hnew₂]
          exact ⟨rfl, s₁.mountid + 1, by omega, by omega, by rw [St.id, hkf, hnew₂]⟩
        · exact hheads f hf
      · rw [map_cons, map_cons, hmem]
        refine congrArg (· :: _) ?_
        rw [St.member, hkf, hnew₂, St.copied, halloc.mount u hu]

def St.free (s : St) (xs : List Nat) : St :=
  { s with mount := fun f => if f ∈ xs then { s.mount f with mountid := 0 } else s.mount f }

theorem mountfree_eq {n : Nat} {v : Option Nat} (xs : List Nat) (hv : From s.next .next v xs) (hn : xs.length ≤ n) :
    mountfree n v s = s.free xs := by
  induction xs generalizing s n v with
  | nil =>
    have hv : v = none := hv
    subst hv
    cases n <;> simp [mountfree, St.free]
  | cons m xs ih =>
    obtain ⟨rfl, hv⟩ := hv
    cases n with
    | zero => simp at hn
    | succ n =>
      rw [mountfree]
      refine (ih (s := { s with mount := update s.mount m { s.mount m with mountid := 0 } }) hv
        (by simpa using hn)).trans ?_
      unfold St.free
      congr 1
      funext f
      by_cases hf : f ∈ xs
      · by_cases hfm : f = m
        · subst hfm
          simp [hf]
        · simp [hf, update_of_ne hfm]
      · by_cases hfm : f = m
        · subst hfm
          simp [hf]
        · simp [hf, hfm]

@[simp] theorem member_free {xs : List Nat} {f : Nat} : (s.free xs).member f = s.member f := by
  unfold St.free St.member
  dsimp only
  split <;> rfl

@[simp] theorem head_free {xs : List Nat} {f : Nat} : ((s.free xs).mount f).head = (s.mount f).head := by
  unfold St.free
  dsimp only
  split <;> rfl

theorem given_free {xs : List Nat} {f : Nat} (hf : f ∉ xs) (h : s.given f) : (s.free xs).given f := by
  refine h.mono ?_ (le_refl _)
  show ((s.free xs).mount f).mountid = _
  unfold St.free
  dsimp only
  rw [if_neg hf, St.id]

theorem or_MCREATE {flag : BitVec 32} (h : flag &&& MCREATE ≠ 0) : flag ||| MCREATE = flag := by
  have htwo : MCREATE = BitVec.twoPow 32 2 := rfl
  rw [htwo, BitVec.and_twoPow] at h
  have hbit : flag.getLsbD 2 = true := by
    by_contra hb
    rw [if_neg hb] at h
    exact h rfl
  rw [htwo]
  ext i hi
  rw [BitVec.getElem_or, BitVec.getElem_twoPow]
  by_cases h2 : i = 2
  · subst h2
    simpa using hbit
  · simp [h2]

/-- The list of a mount point after `N` has been mounted on it. -/
def ordered {α : Type} (order : BitVec 32) (L N : List α) : List α :=
  if order = MREPL then N else if order = MAFTER then L ++ N else N ++ L

theorem setMcreate_eq {nm : Nat} {flag : BitVec 32} (hflag : (s.mount nm).mflag = flag) : setMcreate nm flag s = s := by
  unfold setMcreate
  split
  · next hcr => rw [hflag, or_MCREATE hcr, ← hflag, update_eq_self]
  · rfl

theorem replace_eq {m : Nat} {order : BitVec 32} (h : Ok s own hs fs) : replace m order s =
    if order = MREPL then { s.free (fs m) with next := update s.next (.mount m) none } else s := by
  have hfrom := chain_iff_from.1 (h.next m)
  have hfree : mountfree s.fuel (s.next (.mount m)) s = s.free (fs m) :=
    mountfree_eq _ hfrom (Nat.le_succ_of_le h.length_fs_le)
  unfold replace
  rw [hfree]
  by_cases hord : order = MREPL
  · cases hnil : s.next (.mount m) with
    | none =>
      have hfs : fs m = [] := by
        cases hfs : fs m with
        | nil => rfl
        | cons f _ =>
          rw [hfs, hnil] at hfrom
          exact absurd hfrom.1 nofun
      have hupd : update s.next (.mount m) none = s.next := by rw [← hnil, update_eq_self]
      simp [hord, hfs, hupd, St.free]
    | some f => simp [hord, St.free]
  · simp [hord]

theorem splice_spec {m nm : Nat} (order : BitVec 32) {L N : List Nat} (hL : Chain s.next .next (.mount m) L)
    (hN : Chain s.next .next (.next nm) N) (hlenL : L.length ≤ s.fuel) (hlenN : N.length ≤ s.fuel) (hnm : nm ∉ N)
    (hdisj : ∀ f ∈ nm :: N, f ∉ L) :
    ∃ next, splice m nm order s = { s with next := next } ∧
      Chain next .next (.mount m) (if order = MAFTER then L ++ nm :: N else nm :: N ++ L) ∧
      (∀ c, c ≠ .mount m → (∀ f ∈ L ++ nm :: N, c ≠ .next f) → next c = s.next c) := by
  have hend : MCell.next (lastNode MCell.next s.fuel nm s.next) = endCell .next (.next nm) N := lastNode_eq hN hlenN
  have hlast : ∃ f ∈ nm :: N, endCell MCell.next (.next nm) N = .next f := by
    rcases endCell_eq_or MCell.next (.next nm) N with ⟨heq, -⟩ | ⟨f, hf, heq⟩
    · exact ⟨nm, by simp, heq⟩
    · exact ⟨f, by simp [hf], heq⟩
  by_cases hcase : order = MAFTER ∧ L ≠ []
  · obtain ⟨hord, hne⟩ := hcase
    obtain ⟨f, L', rfl⟩ := exists_cons_of_ne_nil hne
    have hLend : MCell.next (lastNode MCell.next s.fuel f s.next) = endCell .next (.mount m) (f :: L') := by
      rw [endCell_cons]
      exact lastNode_eq hL.2 (Nat.le_of_succ_le hlenL)
    have hLlast : ∃ g ∈ f :: L', endCell MCell.next (.mount m) (f :: L') = .next g := by
      rcases endCell_eq_or MCell.next (.mount m) (f :: L') with ⟨-, hnil⟩ | hg
      · cases hnil
      · exact hg
    obtain ⟨g, hg, hgend⟩ := hLlast
    refine ⟨update s.next (endCell .next (.mount m) (f :: L')) (some nm), ?_, ?_, fun c _ hc => ?_⟩
    · unfold splice
      rw [hL.1, ← hLend]
      simp [hord]
    · rw [if_pos hord]
      refine hL.link (nm :: N) ⟨rfl, ?_⟩ next_injective (fun _ _ => mount_ne_next) fun b hb heq => ?_
      · exact chain_iff_from.1 hN
      · rw [hgend] at heq
        have hbg : b = g := next_injective heq
        exact hdisj b hb (hbg ▸ hg)
    · refine update_of_ne ?_ _ _
      rw [hgend]
      exact hc g (mem_append_left _ hg)
  · obtain ⟨g, hg, hgend⟩ := hlast
    refine ⟨update (update s.next (endCell .next (.next nm) N) (s.next (.mount m))) (.mount m)
      (some nm),
      ?_, ?_, fun c hcm hc => ?_⟩
    · unfold splice
      rw [← hend]
      by_cases hord : order = MAFTER
      · have hnil : L = [] := not_not.1 fun hne => hcase ⟨hord, hne⟩
        subst hnil
        have hnone : s.next (.mount m) = none := hL
        rw [hnone]
      · simp [hord]
    · have hlist : (if order = MAFTER then L ++ nm :: N else nm :: N ++ L) = nm :: (N ++ L) := by
        split
        · next hord =>
          rw [not_not.1 fun hne => hcase ⟨hord, hne⟩, append_nil, nil_append]
        · rfl
      rw [hlist]
      refine ⟨update_self _ _ _, ?_⟩
      refine (hN.link _ (chain_iff_from.1 hL) next_injective (fun f hf heq => ?_) fun b hb heq => ?_).congr ?_
        fun f _ => ?_
      · cases heq
        exact hnm hf
      · rw [hgend] at heq
        have hbg : b = g := next_injective heq
        exact hdisj b (hbg ▸ hg) hb
      · exact update_of_ne mount_ne_next.symm _ _
      · exact update_of_ne mount_ne_next.symm _ _
    · rw [update_of_ne hcm]
      refine update_of_ne ?_ _ _
      rw [hgend]
      exact hc g (mem_append_right _ hg)

/-- The members of the union that the mounted channel is the first of, without that one. -/
def rest (fs : Nat → List Nat) (umh : Option Nat) : List Nat := (umh.elim [] fs).tail

theorem Ok.from_union {umh : Option Nat} (h : Ok s own hs fs) :
    From s.next .next ((umh.bind fun mh => s.next (.mount mh)).bind fun um => s.next (.next um)) (rest fs umh) := by
  cases umh with
  | none => rfl
  | some mh =>
    have hch := h.next mh
    simp only [rest, Option.elim_some, Option.bind_some]
    cases hfs : fs mh with
    | nil =>
      rw [hfs] at hch
      have hnil : s.next (.mount mh) = none := hch
      rw [hnil]
      rfl
    | cons um us =>
      rw [hfs] at hch
      rw [hch.1]
      exact chain_iff_from.1 hch.2

theorem Ok.union_lt {umh : Option Nat} (h : Ok s own hs fs) : ∀ u ∈ rest fs umh, u < s.fresh := by
  intro u hu
  cases umh with
  | none => cases hu
  | some mh => exact (h.heads mh u (mem_of_mem_tail hu)).2

theorem Ok.length_union_le {umh : Option Nat} (h : Ok s own hs fs) : (rest fs umh).length ≤ s.fresh := by
  cases umh with
  | none => exact zero_le
  | some mh => exact le_trans (by simp [rest]) (h.length_fs_le (m := mh))

/-- What is kept of the memory that is in use. -/
structure Frame (s s' : St) : Prop where
  fresh : s.fresh ≤ s'.fresh
  loc : ∀ m < s.fresh, s'.loc m = s.loc m
  member : ∀ f < s.fresh, s'.member f = s.member f
  groups : s'.ref = s.ref ∧ s'.npgrp = s.npgrp

theorem Frame.refl : Frame s s := ⟨le_refl _, fun _ _ => rfl, fun _ _ => rfl, rfl, rfl⟩

theorem Frame.trans {s₁ : St} (h : Frame s s₁) (h₁ : Frame s₁ s') : Frame s s' where
  fresh := le_trans h.fresh h₁.fresh
  loc m hm := (h₁.loc m (lt_of_lt_of_le hm h.fresh)).trans (h.loc m hm)
  member f hf := (h₁.member f (lt_of_lt_of_le hf h.fresh)).trans (h.member f hf)
  groups := ⟨h₁.groups.1.trans h.groups.1, h₁.groups.2.trans h.groups.2⟩

theorem Alloc.frame (h : Alloc s s') : Frame s s' :=
  ⟨h.fresh, fun m _ => congrFun (loc_eq_of_head h.head) m, fun f hf => by rw [St.member, h.mount f hf, St.member],
    h.groups.1, h.groups.2.2⟩

theorem attach_spec {m : Nat} (nm : Nat) (flag : BitVec 32) {N : List Nat} (h : Ok s own hs fs) (hm : m < s.fresh)
    (hch : Chain s.next .next (.next nm) N) (hN : ∀ f ∈ nm :: N, (s.mount f).head = m ∧ f < s.fresh)
    (hnd : (nm :: N).Nodup) (hdisj : ∀ f ∈ nm :: N, f ∉ fs m) (hflag : (s.mount nm).mflag = flag) :
    Ok (attach m nm flag s) own hs (update fs m (ordered (flag &&& MORDER) (fs m) (nm :: N))) ∧
      Frame s (attach m nm flag s) ∧ (∀ f, (attach m nm flag s).member f = s.member f) ∧
      (Given s fs → (∀ f ∈ nm :: N, s.given f) →
        Given (attach m nm flag s) (update fs m (ordered (flag &&& MORDER) (fs m) (nm :: N)))) := by
  generalize horder : flag &&& MORDER = order
  generalize hL : (if order = MREPL then [] else fs m) = L
  generalize hs₁ : replace m order s = s₁
  have hattach : attach m nm flag s = splice m nm order (setMcreate nm flag s₁) := by
    rw [← hs₁, ← horder]
    rfl
  rw [replace_eq h] at hs₁
  have hLsub : ∀ f ∈ L, f ∈ fs m := by
    rw [← hL]
    split
    · nofun
    · exact fun f hf => hf
  have hLch : Chain s₁.next .next (.mount m) L := by
    rw [← hs₁, ← hL]
    split
    · exact update_self _ _ _
    · exact h.next m
  have hnext : ∀ c, c ≠ .mount m → s₁.next c = s.next c := by
    intro c hcm
    rw [← hs₁]
    split
    · exact update_of_ne hcm _ _
    · rfl
  have hmem : ∀ f, s₁.member f = s.member f := by
    intro f
    rw [← hs₁]
    split
    · exact member_free
    · rfl
  have hhead : ∀ f, (s₁.mount f).head = (s.mount f).head := by
    intro f
    rw [← hs₁]
    split
    · exact head_free
    · rfl
  have hsame : s₁.hash = s.hash ∧ s₁.head = s.head ∧ s₁.fresh = s.fresh ∧
      s₁.ref = s.ref ∧ s₁.npgrp = s.npgrp := by
    rw [← hs₁]
    split <;> exact ⟨rfl, rfl, rfl, rfl, rfl⟩
  obtain ⟨hhash₁, hhead₁, hfresh₁, hgroups₁⟩ := hsame
  have hflag₁ : (s₁.mount nm).mflag = flag := (congrArg Member.mflag (hmem nm)).trans hflag
  have hNch : Chain s₁.next .next (.next nm) N :=
    hch.congr (hnext _ mount_ne_next.symm) fun f _ => hnext _ mount_ne_next.symm
  have hlenL : L.length ≤ s₁.fuel := by
    have hsub : L.length ≤ (fs m).length := by
      rw [← hL]
      split <;> simp
    have hfs : (fs m).length ≤ s.fresh := h.length_fs_le
    unfold St.fuel
    omega
  have hlenN : N.length ≤ s₁.fuel := by
    have hsub : N ⊆ range s.fresh := fun f hf => mem_range.2 (hN f (by simp [hf])).2
    have hle := (subperm_of_subset (nodup_cons.1 hnd).2 hsub).length_le
    rw [length_range] at hle
    unfold St.fuel
    omega
  obtain ⟨next, hspl, hlist, hother⟩ := splice_spec order hLch hNch hlenL hlenN (nodup_cons.1 hnd).1
    fun f hf hfL => hdisj f hf (hLsub f hfL)
  rw [setMcreate_eq hflag₁, hspl] at hattach
  have hord : (if order = MAFTER then L ++ nm :: N else nm :: N ++ L) = ordered order (fs m) (nm :: N) := by
    rw [← hL]
    unfold ordered
    by_cases ho : order = MREPL
    · rw [if_pos ho, if_pos ho, append_nil, nil_append, ite_self]
    · rw [if_neg ho, if_neg ho]
  rw [hord] at hlist
  have hLN : ∀ f ∈ L ++ nm :: N, (s.mount f).head = m ∧ f < s.fresh := by
    intro f hf
    rcases mem_append.1 hf with hf | hf
    · exact h.heads m f (hLsub f hf)
    · exact hN f hf
  have hordmem : ∀ f ∈ ordered order (fs m) (nm :: N), (s.mount f).head = m ∧ f < s.fresh := by
    intro f hf
    rw [← hord] at hf
    refine hLN f ?_
    split at hf
    · exact hf
    · exact mem_append.2 (mem_append.1 hf).symm
  have hset := h.setList _ _ hm hlist hordmem
    (fun m' hm' => by
      rw [hother _ (by simpa using hm') fun f _ => mount_ne_next]
      exact hnext _ (by simpa using hm'))
    (fun f hf => by
      rw [hother _ mount_ne_next.symm, hnext _ mount_ne_next.symm]
      intro g hg heq
      have hfg : f = g := next_injective heq
      exact hf (hfg ▸ (hLN g hg).1))
  rw [hattach]
  refine ⟨hset.congr hhash₁ rfl (loc_eq_of_head hhead₁) hhead hfresh₁,
    ⟨le_of_eq hfresh₁.symm, fun m _ => congrFun (loc_eq_of_head hhead₁) m, fun f _ => hmem f, hgroups₁⟩, hmem,
    fun hg hgN m' f hf => ?_⟩
  -- the mounts that are freed are those of `m`, and in no list afterwards
  have hkeep : (order = MREPL → f ∉ fs m) → s.given f → s₁.given f := by
    intro hnot hgiven
    rw [← hs₁]
    split
    · next ho =>
      exact given_free (hnot ho) hgiven
    · exact hgiven
  show s₁.given f
  by_cases hmm : m' = m
  · subst hmm
    rw [update_self, ← hord] at hf
    have hf : f ∈ L ∨ f ∈ nm :: N := by
      split at hf
      · exact mem_append.1 hf
      · exact (mem_append.1 hf).symm
    rcases hf with hf | hf
    · refine hkeep (fun ho => ?_) (hg m' f (hLsub f hf))
      rw [← hL, if_pos ho] at hf
      cases hf
    · exact hkeep (fun _ => hdisj f hf) (hgN f hf)
  · rw [update_of_ne hmm] at hf
    refine hkeep (fun _ hfm => hmm ?_) (hg m' f hf)
    rw [← (h.heads m' f hf).1, (h.heads m f hfm).1]

theorem mountOn_spec {m : Nat} (new : Chan) (umh : Option Nat) (flag : BitVec 32) (spec : Option String)
    (h : Ok s own hs fs) (hm : m < s.fresh) :
    let r := mountOn m new umh flag spec s
    let us := rest fs umh
    let order := flag &&& MORDER
    let N := range' s.fresh (us.length + 1)
    (s.room ≤ us.length → r.1 = .error .Enomem ∧ Alloc s r.2) ∧
      (us.length < s.room → (∃ id, r.1 = .ok id) ∧ Frame s r.2 ∧
        Ok r.2 own hs (update fs m (ordered order (fs m) N)) ∧
        N.map r.2.member = ⟨new, flag, spec⟩ :: us.map (s.copied (if order = MREPL then MAFTER else order)) ∧
        (Given s fs → Given r.2 (update fs m (ordered order (fs m) N)))) := by
  intro r us order N
  generalize hflg : (if order = MREPL then MAFTER else order) = flg
  by_cases hroom : s.room = 0
  · have hr : r = (.error .Enomem, s) := by
      show mountOn m new umh flag spec s = _
      unfold mountOn newmount
      rw [if_pos hroom]
    rw [hr]
    exact ⟨fun _ => ⟨rfl, .refl⟩, fun hlt => by omega⟩
  generalize hs₁ : putmount m new flag spec { s with room := s.room - 1 } = s₁
  have halloc : Alloc s s₁ := by
    have hrm : Alloc s { s with room := s.room - 1 } := { Alloc.refl (s := s) with }
    rw [← hs₁]
    exact hrm.putmount
  have hfresh : s₁.fresh = s.fresh + 1 := by rw [← hs₁]; rfl
  have hroom₁ : s₁.room = s.room - 1 := by rw [← hs₁]; rfl
  have hnm : s₁.mount s.fresh = ⟨toUlong (s.mountid + 1), m, none, new, flag, spec⟩ := by
    rw [← hs₁]
    exact update_self _ _ _
  have hnil : s₁.next (.next s.fresh) = none := by
    rw [← hs₁]
    exact update_self _ _ _
  generalize hv : ((umh.bind fun mh => s₁.next (.mount mh)).bind fun um => s₁.next (.next um)) = v
  have hfrom : From s₁.next .next v us := hv ▸ (halloc.ok h).from_union
  have hlen : us.length ≤ s.fresh := h.length_union_le
  obtain ⟨hA, hiff, hkeep, hdone, hids⟩ := copyUnion_spec (m := m) (n := s₁.fuel) flg halloc (le_refl _)
    (by omega) hnil hfrom h.union_lt (by unfold St.fuel; omega)
  generalize hc : copyUnion m flg s₁.fuel v (.next s.fresh) s₁ = c at hA hiff hkeep hdone hids
  obtain ⟨b, s₂⟩ := c
  have hr : r = bif b then (.ok ((attach m s.fresh flag s₂).mount s.fresh).mountid, attach m s.fresh flag s₂)
      else (.error .Enomem, s₂) := by
    show mountOn m new umh flag spec s = _
    unfold mountOn newmount
    rw [if_neg hroom]
    dsimp only
    rewrite [hs₁, hv, hflg, hc]
    cases b <;> rfl
  cases b with
  | false =>
    have hlt : ¬ us.length ≤ s₁.room := fun hle => Bool.false_ne_true (hiff.2 hle)
    rw [hr]
    exact ⟨fun _ => ⟨rfl, hA⟩, fun h => by omega⟩
  | true =>
    have hle := hiff.1 rfl
    refine ⟨fun h => by omega, fun _ => ?_⟩
    obtain ⟨hch, -, hfresh₂, hheads, hmem⟩ := hdone rfl
    rw [hfresh] at hch hfresh₂ hheads hmem
    dsimp only [cond_true] at hA hr hch hfresh₂ hheads hmem hkeep
    have hN : N = s.fresh :: range' (s.fresh + 1) us.length := range'_succ
    have hnm₂ := (hkeep s.fresh (by omega)).trans hnm
    have hNhead : ∀ f ∈ N, (s₂.mount f).head = m ∧ f < s₂.fresh := by
      intro f hf
      have hlt := mem_range'_1.1 hf
      rw [hN] at hf
      rcases mem_cons.1 hf with rfl | hf
      · rw [hnm₂]
        exact ⟨rfl, by omega⟩
      · exact ⟨(hheads f hf).1, by omega⟩
    have hNgiven : ∀ f ∈ N, s₂.given f := by
      intro f hf
      rw [hN] at hf
      rcases mem_cons.1 hf with rfl | hf
      · have hid₁ : s₁.mountid = s.mountid + 1 := by rw [← hs₁]; rfl
        exact ⟨s.mountid + 1, by omega, by dsimp only at hids; omega, by rw [St.id, hnm₂]⟩
      · exact (hheads f hf).2
    obtain ⟨hok, hframe, hmem', hgiven⟩ := attach_spec s.fresh flag (hA.ok h) (by omega) hch (hN ▸ hNhead)
      (hN ▸ nodup_range') (fun f hf hfL => by
        rw [← hN, mem_range'_1] at hf
        have := (h.heads m f hfL).2
        omega) (by rw [hnm₂])
    rw [hr, hN]
    refine ⟨⟨_, rfl⟩, hA.frame.trans hframe, hok, ?_, fun hg => hgiven (hA.lists h hg) (hN ▸ hNgiven)⟩
    have hmap : ∀ l : List Nat, l.map (attach m s.fresh flag s₂).member = l.map s₂.member := fun l =>
      map_congr_left fun f _ => hmem' f
    dsimp only
    rw [hmap, map_cons, hmem, St.member, hnm₂]

/-- The lists with `m` at the end of the bucket for `a`. -/
def addHead (hs : Nat → Nat → List Nat) (pg : Nat) (a : Loc) (m : Nat) : Nat → Nat → List Nat :=
  update hs pg (update (hs pg) (MOUNTH a) (hs pg (MOUNTH a) ++ [m]))

theorem mountHead_some {pg m : Nat} {old : Chan} {order : BitVec 32} (hm : (s.lookup pg old.loc).2 = some m) :
    mountHead pg old order s = (some m, s) := by
  unfold mountHead
  cases hl : s.lookup pg old.loc with
  | mk l m' =>
    rw [hl] at hm
    cases hm
    rfl

theorem mountHead_none {pg : Nat} {old : Chan} (order : BitVec 32) (h : Ok s own hs fs)
    (hm : (s.lookup pg old.loc).2 = none) :
    let r := mountHead pg old order s
    Frame s r.2 ∧ (r.1 = if order = MREPL ∨ s.room ≠ 0 then some s.fresh else none) ∧ s.fresh < r.2.fresh ∧
      Ok r.2 (update own s.fresh pg) (addHead hs pg old.loc s.fresh)
        (if order = MREPL ∨ s.room = 0 then fs else update fs s.fresh [s.fresh + 1]) ∧
      r.2.loc s.fresh = old.loc ∧ (order ≠ MREPL → s.room ≠ 0 → r.2.member (s.fresh + 1) = ⟨old, 0, none⟩) ∧
      (r.2.room = if order = MREPL then s.room else s.room - 1) ∧
      (Given s fs → Given r.2 (if order = MREPL ∨ s.room = 0 then fs else update fs s.fresh [s.fresh + 1])) := by
  intro r
  obtain ⟨hl, hnew⟩ := h.lookup_none hm
  generalize hs₁ : ({ newmhead old s with
    hash := update (newmhead old s).hash (s.lookup pg old.loc).1 (some s.fresh) } : St) = s₁
  generalize hs₂ : putmount s.fresh old 0 none { s₁ with room := s₁.room - 1 } = s₂
  have hr : r = if order = MREPL then (some s.fresh, s₁)
      else if s₁.room = 0 then (none, { s₁ with wlocked := update s₁.wlocked pg true })
      else (some s.fresh, { s₂ with next := update s₂.next (.mount s.fresh) (some s₁.fresh) }) := by
    show mountHead pg old order s = _
    unfold mountHead
    generalize s.lookup pg old.loc = p at hm hs₁
    obtain ⟨l, m'⟩ := p
    cases hm
    dsimp only at hs₁ ⊢
    rewrite [hs₁]
    unfold newmount
    rewrite [hs₂]
    by_cases hroom : s₁.room = 0
    · rewrite [if_pos hroom, if_pos hroom]
      rfl
    · rewrite [if_neg hroom, if_neg hroom]
      rfl
  have hok : Ok s₁ (update own s.fresh pg) (addHead hs pg old.loc s.fresh) fs := by
    rw [← hs₁, hl]
    exact h.addHead hnew
  have hfresh₁ : s₁.fresh = s.fresh + 1 := by rw [← hs₁]; rfl
  have hroom₁ : s₁.room = s.room := by rw [← hs₁]; rfl
  have hid₁ : s₁.mountid = s.mountid := by rw [← hs₁]; rfl
  have hgiven₁ : Given s fs → Given s₁ fs := by
    rw [← hs₁]
    exact id
  have hloc₁ : s₁.loc s.fresh = old.loc := by
    rw [← hs₁]
    simp [St.loc, newmhead]
  have hframe : Frame s s₁ := by
    rw [← hs₁]
    refine ⟨Nat.le_succ _, fun m hm => ?_, fun _ _ => rfl, rfl, rfl⟩
    simp [St.loc, newmhead, update_of_ne (ne_of_lt hm)]
  by_cases hord : order = MREPL
  · rw [if_pos hord] at hr
    rw [hr]
    simp only [hord, true_or, ↓reduceIte, not_true_eq_false, false_implies, true_and, ne_eq]
    exact ⟨hframe, by omega, hok, hloc₁, hroom₁, hgiven₁⟩
  rw [if_neg hord] at hr
  by_cases hroom : s.room = 0
  · rw [if_pos (hroom₁.trans hroom)] at hr
    rw [hr]
    simp only [hord, hroom, or_true, ↓reduceIte, not_true_eq_false, false_implies, ne_eq, or_self, implies_true,
      true_and]
    exact ⟨⟨hframe.fresh, hframe.loc, hframe.member, hframe.groups⟩,
      by omega, hok.congr rfl rfl rfl (fun _ => rfl) rfl,
      hloc₁, by show s₁.room = 0 - 1; omega, hgiven₁⟩
  rw [if_neg (by omega)] at hr
  have halloc : Alloc s₁ s₂ := by
    have hrm : Alloc s₁ { s₁ with room := s₁.room - 1 } := { Alloc.refl (s := s₁) with }
    rw [← hs₂]
    exact hrm.putmount
  have hnewm : s₂.mount s₁.fresh = ⟨toUlong (s₁.mountid + 1), s.fresh, none, old, 0, none⟩ := by
    rw [← hs₂]
    exact update_self _ _ _
  have hnil : s₂.next (.next s₁.fresh) = none := by
    rw [← hs₂]
    exact update_self _ _ _
  have hfresh₂ : s₂.fresh = s₁.fresh + 1 := by rw [← hs₂]; rfl
  have hroom₂ : s₂.room = s₁.room - 1 := by rw [← hs₂]; rfl
  have hset := (halloc.ok hok).setList (m := s.fresh) (update s₂.next (.mount s.fresh) (some s₁.fresh))
    [s₁.fresh] (by omega)
    ⟨update_self _ _ _, (update_of_ne mount_ne_next.symm _ _).trans hnil⟩
    (by
      intro f hf
      rw [mem_singleton.1 hf, hnewm]
      exact ⟨rfl, by omega⟩)
    (fun m hm => update_of_ne (by simpa using hm) _ _)
    (fun f _ => update_of_ne mount_ne_next.symm _ _)
  have hframe₂ := hframe.trans halloc.frame
  rw [hr]
  simp only [hord, hroom, or_self, or_true, ne_eq, not_false_eq_true, ↓reduceIte, true_and, forall_const]
  rw [hfresh₁] at hset hnewm
  refine ⟨⟨hframe₂.fresh, hframe₂.loc, hframe₂.member, hframe₂.groups⟩, ?_, ?_, ?_, ?_, ?_, fun hg m f hf => ?_⟩
  · show s.fresh < s₂.fresh
    omega
  · rw [hfresh₁]
    exact hset
  · exact (halloc.frame.loc s.fresh (by omega)).trans hloc₁
  · show s₂.member (s.fresh + 1) = _
    rw [St.member, hnewm]
  · show s₂.room = s.room - 1
    omega
  · show s₂.given f
    by_cases hm : m = s.fresh
    · rw [hm, update_self, mem_singleton] at hf
      rw [hf]
      have hid₂ : s₂.mountid = s₁.mountid + 1 := by rw [← hs₂]; rfl
      exact ⟨s₁.mountid + 1, by omega, by omega, by rw [St.id, hnewm]⟩
    · rw [update_of_ne hm] at hf
      exact halloc.given (hok.heads m f hf).2 (hgiven₁ hg m f hf)

/-- The lists without the `Mhead` of `a`. -/
def dropHead (loc : Nat → Loc) (hs : Nat → Nat → List Nat) (pg : Nat) (a : Loc) : Nat → Nat → List Nat :=
  update hs pg (update (hs pg) (MOUNTH a) ((hs pg (MOUNTH a)).eraseP fun m => eqchan (loc m) a))

theorem dropHead_sublist {loc : Nat → Loc} {pg pg' i : Nat} {a : Loc} :
    (dropHead loc hs pg a pg' i).Sublist (hs pg' i) := by
  unfold dropHead
  by_cases hpg : pg' = pg
  · subst hpg
    rw [update_self]
    by_cases hi : i = MOUNTH a
    · subst hi
      rw [update_self]
      exact eraseP_sublist
    · rw [update_of_ne hi]
  · rw [update_of_ne hpg]

/-- `*l = m->hash` -/
theorem Ok.unhash {pg m : Nat} {a : Loc} (h : Ok s own hs fs) (hm : (s.lookup pg a).2 = some m) :
    Ok { s with hash := update s.hash (s.lookup pg a).1 (s.hash (.hash m)) } own
    (dropHead s.loc hs pg a) fs := by
  have hunlink : update s.hash (s.lookup pg a).1 (s.hash (.hash m)) =
      (unlinkFirst .hash (fun m => eqchan (s.loc m) a) s.fuel (.bucket pg (MOUNTH a)) s.hash).1 := by
    rw [unlinkFirst_eq_seek]
    have hm' : (seek .hash (fun m => eqchan (s.loc m) a) s.fuel (.bucket pg (MOUNTH a)) s.hash).2 = some m := hm
    rw [hm']
    rfl
  obtain ⟨hch, -, hother⟩ := unlinkFirst_spec (p := fun m => eqchan (s.loc m) a) (n := s.fuel) hash_injective
    (h.hash pg (MOUNTH a)) (Nat.lt_succ_of_le h.length_hs_le) fun _ _ => nofun
  refine ⟨fun pg' i => ?_, fun pg' i m hm => h.bucket pg' i m (dropHead_sublist.subset hm), fun pg' i => ?_, h.next,
    h.heads,
    h.new⟩
  · rw [hunlink]
    by_cases hbk : pg' = pg ∧ i = MOUNTH a
    · obtain ⟨rfl, rfl⟩ := hbk
      simp only [dropHead, update_self]
      exact hch
    have heq : dropHead s.loc hs pg a pg' i = hs pg' i := by
      unfold dropHead
      by_cases hpg : pg' = pg
      · subst hpg
        rw [update_self, update_of_ne fun hi => hbk ⟨rfl, hi⟩]
      · rw [update_of_ne hpg]
    rw [heq]
    refine (h.hash pg' i).congr (hother _ ?_ fun _ _ => nofun) fun m' hm' => hother _ nofun fun m₁ hm₁ hcell => ?_
    · intro hcell
      cases hcell
      exact hbk ⟨rfl, rfl⟩
    · obtain rfl := hash_injective hcell
      obtain ⟨rfl, rfl, -⟩ := h.bucket _ _ _ hm'
      obtain ⟨rfl, hi, -⟩ := h.bucket _ _ _ hm₁
      exact hbk ⟨rfl, hi⟩
  · exact (h.inj pg' i).sublist (dropHead_sublist.map _)

theorem Ok.free (h : Ok s own hs fs) (xs : List Nat) : Ok (s.free xs) own hs fs :=
  h.congr rfl rfl rfl (fun _ => head_free) rfl

theorem Ok.unlink {m f : Nat} {p : Nat → Bool} (h : Ok s own hs fs) (hf : (fs m).find? p = some f) :
    let u := unlinkFirst .next p s.fuel (.mount m) s.next
    let s₁ := { s with next := update u.1 (.next f) none }
    u.2 = some f ∧ mountfree s.fuel (some f) s₁ = s₁.free [f] ∧
      Ok (s₁.free [f]) own hs (update fs m ((fs m).eraseP p)) ∧
      (Given s fs → Given (s₁.free [f]) (update fs m ((fs m).eraseP p))) := by
  intro u s₁
  have hfm := mem_of_find?_eq_some hf
  obtain ⟨hch, hu, hother⟩ := unlinkFirst_spec (p := p) (n := s.fuel) next_injective (h.next m)
    (Nat.lt_succ_of_le h.length_fs_le) fun _ _ => mount_ne_next
  have hnf : f ∉ (fs m).eraseP p := by
    have hperm := nodup_append.1 ((find?_append_eraseP_perm p (fs m)).nodup_iff.2 (h.next m).nodup)
    rw [hf] at hperm
    exact fun hmem => hperm.2.2 f (by simp) f hmem rfl
  refine ⟨hu.trans hf, mountfree_eq [f] ⟨rfl, update_self _ _ _⟩ ?_, Ok.free ?_ _,
    fun hg m' g hg' => ?_⟩
  · exact Nat.succ_le_succ zero_le
  · have hm : m < s.fresh := by
      by_contra hm
      rw [h.new m (by omega)] at hfm
      cases hfm
    refine h.setList _ _ hm (hch.congr ?_ fun g hg => ?_) (fun g hg => h.heads m g (mem_of_mem_eraseP hg))
      (fun m' hm' => ?_) fun g hg => ?_
    · exact update_of_ne mount_ne_next _ _
    · exact update_of_ne (fun heq => hnf (by rwa [← next_injective heq])) _ _
    · rw [update_of_ne mount_ne_next]
      exact hother _ (by simpa using hm') fun _ _ => mount_ne_next
    · have hgm : ∀ g' ∈ fs m, MCell.next g ≠ .next g' := fun g' hg' heq =>
        hg (next_injective heq ▸ (h.heads m g' hg').1)
      rw [update_of_ne (hgm f hfm)]
      exact hother _ mount_ne_next.symm hgm
  · have hgf : g ≠ f ∧ s.given g := by
      by_cases hm : m' = m
      · subst hm
        rw [update_self] at hg'
        exact ⟨fun heq => hnf (heq ▸ hg'), hg m' g (mem_of_mem_eraseP hg')⟩
      · rw [update_of_ne hm] at hg'
        refine ⟨fun heq => hm ?_, hg m' g hg'⟩
        rw [← (h.heads m' g hg').1, heq, (h.heads m f hfm).1]
    exact given_free (by simpa using hgf.1) hgf.2

/-- What `cunmount` leaves of a list. -/
def remaining (s : St) (mounted : Option Loc) (xs : List Nat) : List Nat :=
  match mounted with
  | none => []
  | some c => xs.eraseP (isMounted s c)

@[simp] theorem loc_putmhead {m : Nat} : (putmhead m s).loc = s.loc := by
  funext m'
  unfold St.loc putmhead
  by_cases hm : m' = m
  · subst hm
    simp
  · simp [update_of_ne hm]

theorem Ok.putmhead (h : Ok s own hs fs) (m : Nat) : Ok (putmhead m s) own hs fs :=
  h.congr rfl rfl loc_putmhead (fun _ => rfl) rfl

theorem frame_of_eq (hfresh : s'.fresh = s.fresh) (hloc : s'.loc = s.loc) (hmem : ∀ f, s'.member f = s.member f)
    (href : s'.ref = s.ref) (hgrp : s'.npgrp = s.npgrp) : Frame s s' :=
  ⟨le_of_eq hfresh.symm, fun m _ => congrFun hloc m, fun f _ => hmem f, href, hgrp⟩

theorem cunmount_error {pg : Nat} {mnt : Loc} {mounted : Option Loc} (h : Ok s own hs fs)
    (hno : ∀ m, (s.lookup pg mnt).2 = some m → ∃ c, mounted = some c ∧ (fs m).find? (isMounted s c) = none) :
    (cunmount pg mnt mounted s).2 = s ∧ ∃ e, (cunmount pg mnt mounted s).1 = .error e := by
  unfold cunmount
  generalize hl : s.lookup pg mnt = l at hno
  obtain ⟨l, _ | m⟩ := l
  · exact ⟨rfl, _, rfl⟩
  obtain ⟨c, rfl, hnone⟩ := hno m rfl
  obtain ⟨-, hu, -⟩ := unlinkFirst_spec (p := isMounted s c) (n := s.fuel) next_injective (h.next m)
    (Nat.lt_succ_of_le h.length_fs_le) fun _ _ => mount_ne_next
  dsimp only
  generalize unlinkFirst .next (isMounted s c) s.fuel (.mount m) s.next = u at hu
  obtain ⟨u, f⟩ := u
  rw [hnone] at hu
  cases hu
  exact ⟨rfl, _, rfl⟩

theorem cunmount_spec {pg m : Nat} {mnt : Loc} {mounted : Option Loc} (h : Ok s own hs fs)
    (hm : (s.lookup pg mnt).2 = some m) (hf : ∀ c, mounted = some c → (fs m).find? (isMounted s c) ≠ none) :
    let r := cunmount pg mnt mounted s
    let xs := remaining s mounted (fs m)
    r.1 = .ok () ∧ Frame s r.2 ∧
      Ok r.2 own (if xs = [] then dropHead s.loc hs pg mnt else hs) (update fs m xs) ∧
      (Given s fs → Given r.2 (update fs m xs)) := by
  intro r xs
  have hmlt : m < s.fresh := (h.bucket _ _ m (h.lookup_some hm).1).2.2
  have hunhash := h.unhash hm
  have hr : r = cunmount pg mnt mounted s := rfl
  unfold cunmount at hr
  generalize hl : s.lookup pg mnt = l at hm hr hunhash
  obtain ⟨l, m'⟩ := l
  cases hm
  cases mounted with
  | none =>
    dsimp only at hr hunhash
    have hnext := chain_iff_from.1 (h.next m)
    have hfree : mountfree s.fuel (s.next (.mount m)) { s with hash := update s.hash l (s.hash (.hash m)) } =
        ({ s with hash := update s.hash l (s.hash (.hash m)) } : St).free (fs m) :=
      mountfree_eq _ hnext (Nat.le_succ_of_le h.length_fs_le)
    have hfuel : ({ s with hash := update s.hash l (s.hash (.hash m)) } : St).fuel = s.fuel := rfl
    rw [hfuel, hfree] at hr
    rw [hr]
    refine ⟨rfl, frame_of_eq rfl loc_putmhead (fun _ => member_free) rfl rfl, ?_, fun hg m' f hf => ?_⟩
    · rw [if_pos (show xs = [] from rfl)]
      exact Ok.putmhead ((hunhash.free (fs m)).setList _ [] hmlt (update_self _ _ _) (by simp)
        (fun m' hm' => update_of_ne (by simpa using hm') _ _)
        fun f _ => update_of_ne mount_ne_next.symm _ _) m
    by_cases hm : m' = m
    · rw [hm, update_self] at hf
      exact absurd hf not_mem_nil
    · rw [update_of_ne hm] at hf
      refine given_free (s := s) (fun hfm => hm ?_) (hg m' f hf)
      rw [← (h.heads m' f hf).1, (h.heads m f hfm).1]
  | some c =>
    obtain ⟨f, hfind⟩ := Option.ne_none_iff_exists'.1 (hf c rfl)
    obtain ⟨hu, hfree, hok, hgiven⟩ := h.unlink hfind
    dsimp only at hr hunhash
    generalize unlinkFirst .next (isMounted s c) s.fuel (.mount m) s.next = u at hu hfree hok hgiven hr
    obtain ⟨u, f'⟩ := u
    cases hu
    dsimp only at hr hfree hok hgiven
    rw [hfree] at hr
    generalize hs₁ : ({ s with next := update u (.next f) none } : St).free [f] = s₁ at hr hok hgiven
    have hxs : xs = (fs m).eraseP (isMounted s c) := rfl
    have hch := hok.next m
    rw [update_self, ← hxs] at hch
    have hframe : Frame s s₁ := by
      rw [← hs₁]
      exact frame_of_eq rfl rfl (fun _ => member_free) rfl rfl
    have hhash : s₁.hash = s.hash ∧ s₁.loc = s.loc := by
      rw [← hs₁]
      exact ⟨rfl, rfl⟩
    by_cases hnil : xs = []
    · rw [hnil] at hch
      have hnone : s₁.next (.mount m) = none := hch
      have hlook : s₁.lookup pg mnt = (l, some m) := by
        rw [← hl, ← hs₁]
        rfl
      have hun := hok.unhash (congrArg Prod.snd hlook)
      rw [hlook, hhash.2] at hun
      rw [if_pos hnone] at hr
      rw [hr, if_pos hnil]
      exact ⟨rfl, hframe.trans (frame_of_eq rfl loc_putmhead (fun _ => rfl) rfl rfl), hun.putmhead m, hgiven⟩
    · have hsome : s₁.next (.mount m) ≠ none := by
        obtain ⟨f, ys, hys⟩ := exists_cons_of_ne_nil hnil
        rw [hys] at hch
        rw [hch.1]
        nofun
      rw [if_neg hsome] at hr
      rw [hr, if_neg hnil]
      exact ⟨rfl, hframe, hok, hgiven⟩

/-- The mount points of a group, bucket by bucket. -/
def headsOf (hs : Nat → Nat → List Nat) (pg : Nat) : List Nat := (range MNTHASH).flatMap (hs pg)

section
variable (h : Ok s own hs fs)
include h

theorem Ok.mem_headsOf {pg m : Nat} : m ∈ headsOf hs pg ↔ m ∈ hs pg (MOUNTH (s.loc m)) := by
  unfold headsOf
  rw [mem_flatMap]
  constructor
  · rintro ⟨i, -, hm⟩
    rwa [(h.bucket pg i m hm).2.1]
  · exact fun hm => ⟨_, mem_range.2 (MOUNTH_lt _), hm⟩

theorem Ok.own_eq {pg m : Nat} (hm : m ∈ headsOf hs pg) : own m = pg :=
  (h.bucket _ _ _ (h.mem_headsOf.1 hm)).1

theorem Ok.lt_of_headsOf {pg m : Nat} (hm : m ∈ headsOf hs pg) : m < s.fresh :=
  (h.bucket _ _ _ (h.mem_headsOf.1 hm)).2.2

theorem closeHeads_spec {n : Nat} {v : Option Nat} {ms : List Nat}
    (hv : From s.hash .hash v ms) (hn : ms.length ≤ n) (hms : ∀ m ∈ ms, m < s.fresh) :
    Ok (closeHeads n v s) own hs (fun m => if m ∈ ms then [] else fs m) ∧ Frame s (closeHeads n v s) ∧
      (closeHeads n v s).hash = s.hash ∧
      (Given s fs → Given (closeHeads n v s) (fun m => if m ∈ ms then [] else fs m)) := by
  induction ms generalizing s n v fs with
  | nil =>
    have hv : v = none := hv
    subst hv
    have hr : closeHeads n none s = s := by cases n <;> rfl
    rw [hr]
    exact ⟨by simpa using h, .refl, rfl, by simp⟩
  | cons m ms ih =>
    obtain ⟨rfl, hv⟩ := hv
    cases n with
    | zero => simp at hn
    | succ n =>
      have hfree : mountfree s.fuel (s.next (.mount m)) s = s.free (fs m) :=
        mountfree_eq _ (chain_iff_from.1 (h.next m)) (Nat.le_succ_of_le h.length_fs_le)
      generalize hs₁ : putmhead m { s.free (fs m) with next := update s.next (.mount m) none } = s₁
      have hstep : closeHeads (n + 1) (some m) s = closeHeads n (s.hash (.hash m)) s₁ := by
        rw [closeHeads, hfree, ← hs₁]
        rfl
      have hok : Ok s₁ own hs (update fs m []) := by
        rw [← hs₁]
        exact Ok.putmhead ((h.free (fs m)).setList _ [] (hms m (by simp)) (update_self _ _ _) (by simp)
          (fun m' hm' => update_of_ne (by simpa using hm') _ _)
          fun f _ => update_of_ne mount_ne_next.symm _ _) m
      have hframe : Frame s s₁ := by
        rw [← hs₁]
        exact frame_of_eq rfl loc_putmhead (fun _ => member_free) rfl rfl
      have hhash : s₁.hash = s.hash := by
        rw [← hs₁]
        rfl
      have hgiven : Given s fs → Given s₁ (update fs m []) := by
        intro hg m' f hf
        rw [← hs₁]
        by_cases hm : m' = m
        · rw [hm, update_self] at hf
          cases hf
        · rw [update_of_ne hm] at hf
          refine given_free (s := s) (fun hfm => hm ?_) (hg m' f hf)
          rw [← (h.heads m' f hf).1, (h.heads m f hfm).1]
      obtain ⟨hok', hframe', hhash', hgiven'⟩ := ih (n := n) hok (by rw [hhash]; exact hv) (by simpa using hn)
        fun m' hm' => lt_of_lt_of_le (hms m' (by simp [hm'])) hframe.fresh
      rw [hstep]
      have hlists : (fun m' => if m' ∈ ms then [] else update fs m [] m') =
          fun m' => if m' ∈ m :: ms then [] else fs m' := by
        funext m'
        by_cases hmm : m' = m
        · subst hmm
          simp
        · simp [hmm]
      rw [← hlists]
      exact ⟨hok', hframe.trans hframe', hhash'.trans hhash, fun hg => hgiven' (hgiven hg)⟩

end

theorem closeBuckets_spec (pg : Nat) (is : List Nat) (h : Ok s own hs fs) :
    Ok (closeBuckets pg is s) own hs (fun m => if m ∈ is.flatMap (hs pg) then [] else fs m) ∧
      Frame s (closeBuckets pg is s) ∧
      (Given s fs → Given (closeBuckets pg is s) (fun m => if m ∈ is.flatMap (hs pg) then [] else fs m)) := by
  induction is generalizing s fs with
  | nil => exact ⟨by simpa [closeBuckets] using h, .refl, by simp [closeBuckets]⟩
  | cons i is ih =>
    obtain ⟨hok, hframe, -, hgiven⟩ := closeHeads_spec h (chain_iff_from.1 (h.hash pg i))
      (Nat.le_succ_of_le h.length_hs_le)
      fun m hm => (h.bucket pg i m hm).2.2
    obtain ⟨hok', hframe', hgiven'⟩ := ih hok
    have hlists : (fun m => if m ∈ is.flatMap (hs pg) then [] else if m ∈ hs pg i then [] else fs m) =
        fun m => if m ∈ (i :: is).flatMap (hs pg) then [] else fs m := by
      funext m
      by_cases h₁ : m ∈ is.flatMap (hs pg) <;> by_cases h₂ : m ∈ hs pg i <;>
        simp only [h₁, h₂, flatMap_cons, mem_append, ↓reduceIte, or_true, or_false]
    rw [← hlists]
    exact ⟨hok', hframe.trans hframe', fun hg => hgiven' (hgiven hg)⟩

/-- The lists after the group has been closed. -/
def closed (s : St) (hs : Nat → Nat → List Nat) (fs : Nat → List Nat) (pg : Nat) : Nat → List Nat :=
  fun m => if s.ref pg ≤ 1 ∧ m ∈ headsOf hs pg then [] else fs m

theorem closepgrp_spec (pg : Nat) (h : Ok s own hs fs) :
    Ok (closepgrp pg s) own hs (closed s hs fs pg) ∧ (closepgrp pg s).ref = update s.ref pg (s.ref pg - 1) ∧
      (Given s fs → Given (closepgrp pg s) (closed s hs fs pg)) := by
  have hok : Ok { s with ref := update s.ref pg (s.ref pg - 1) } own hs fs :=
    h.congr rfl rfl rfl (fun _ => rfl) rfl
  have hself : update s.ref pg (s.ref pg - 1) pg = s.ref pg - 1 := update_self _ _ _
  unfold closepgrp closed
  dsimp only
  by_cases href : update s.ref pg (s.ref pg - 1) pg ≠ 0
  · have hnot : ∀ m, ¬ (s.ref pg ≤ 1 ∧ m ∈ headsOf hs pg) := fun m hm => by omega
    rw [if_pos href]
    simp only [hnot, ↓reduceIte]
    exact ⟨hok, trivial, id⟩
  · have hle : s.ref pg ≤ 1 := by omega
    obtain ⟨hok', hframe, hgiven⟩ := closeBuckets_spec pg (range MNTHASH) hok
    rw [if_neg href]
    simp only [hle, true_and]
    exact ⟨hok', hframe.groups.1, hgiven⟩

theorem newpgrp_spec (h : Ok s own hs fs) :
    Ok (newpgrp s) own (update hs s.npgrp fun _ => []) fs ∧ (newpgrp s).loc = s.loc ∧
      (newpgrp s).ref = update s.ref s.npgrp 1 := by
  refine ⟨⟨fun pg i => ?_, fun pg i m hm => ?_, fun pg i => ?_, h.next, h.heads, h.new⟩, rfl, rfl⟩
  · by_cases hpg : pg = s.npgrp
    · subst hpg
      rw [update_self]
      simp [Chain, newpgrp]
    · rw [update_of_ne hpg]
      refine (h.hash pg i).congr ?_ fun _ _ => rfl
      simp [newpgrp, hpg]
  · by_cases hpg : pg = s.npgrp
    · subst hpg
      simp at hm
    · rw [update_of_ne hpg] at hm
      exact h.bucket pg i m hm
  · by_cases hpg : pg = s.npgrp
    · subst hpg
      simp
    · rw [update_of_ne hpg]
      exact h.inj pg i

end Node9.Mounts
