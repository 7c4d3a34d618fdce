import Node9.MountsOrder

/-!
# Mount ids across a fork

`newmount` gives out the counter after it has added one, and `pgrpcpy` the counter before. So the first copy gets
the id that `newmount` has given out last. That is an id of a copy, which is given a new one too, unless another
process has mounted something since the last mount was copied.
-/

namespace Node9.Mounts
open Linked Steps Function
open Option hiding map_map mem_map mem_map_of_mem
open List hiding Chain

/-- What happens to the ids, step by step. -/
inductive Prim : St → St → Prop
  | put (mh : Nat) (toc : Chan) (flag : BitVec 32) (spec : Option String) (s : St) :
  Prim s (putmount mh toc flag spec s)
  | free (f : Nat) (s : St) : Prim s { s with mount := update s.mount f { s.mount f with mountid := 0 } }
  | other {s s' : St} (hid : s'.id = s.id) (hctr : s'.mountid = s.mountid) (hfresh : s.fresh ≤ s'.fresh) : Prim s s'

abbrev Prims : St → St → Prop := Relation.ReflTransGen Prim

structure Ids (s : St) : Prop where
  le : ∀ f, s.id f ≤ s.mountid
  new : ∀ f, s.fresh ≤ f → s.id f = 0
  unique : ∀ f g, s.id f = s.id g → s.id f ≠ 0 → f = g

/-- No two mounts that have not been freed have one id. -/
def Unique (s : St) : Prop := ∀ f g, s.id f = s.id g → s.id f ≠ 0 → f = g

variable {s s' : St} {own : Nat → Nat} {hs : Nat → Nat → List Nat} {fs : Nat → List Nat} {env : Nat → List Newmount}

theorem toUlong_eq {n : Nat} (h : n < 2 ^ 31) : toUlong n = n := by
  unfold toUlong
  rw [BitVec.signExtend_eq_setWidth_of_msb_false]
  · simp only [BitVec.toNat_setWidth, BitVec.toNat_ofNat]
    omega
  · rw [BitVec.msb_eq_false_iff_two_mul_lt]
    simp only [BitVec.toNat_ofNat]
    omega

theorem Prim.mountid_le (h : Prim s s') : s.mountid ≤ s'.mountid := by
  cases h with
  | put => exact Nat.le_succ _
  | free => exact le_refl _
  | other _ hctr _ => exact le_of_eq hctr.symm

theorem Prims.mountid_le (h : Prims s s') : s.mountid ≤ s'.mountid := by
  induction h with
  | refl => exact le_refl _
  | tail _ h ih => exact le_trans ih h.mountid_le

theorem Prim.ids (h : Prim s s') (hs : s'.mountid < 2 ^ 31) (hi : Ids s) : Ids s' := by
  cases h with
  | put mh toc flag spec =>
    have hself : (putmount mh toc flag spec s).id s.fresh = s.mountid + 1 := by
      unfold St.id putmount
      dsimp only
      rw [update_self]
      exact toUlong_eq hs
    have hother : ∀ f, f ≠ s.fresh → (putmount mh toc flag spec s).id f = s.id f := by
      intro f hf
      unfold St.id putmount
      dsimp only
      rw [update_of_ne hf]
    refine ⟨fun f => ?_, fun f hf => ?_, fun f g heq hne => ?_⟩
    · show _ ≤ s.mountid + 1
      by_cases hf : f = s.fresh
      · rw [hf, hself]
      · rw [hother f hf]
        exact Nat.le_succ_of_le (hi.le f)
    · have hf : s.fresh + 1 ≤ f := hf
      rw [hother f (by omega)]
      exact hi.new f (by omega)
    by_cases hf : f = s.fresh <;> by_cases hg : g = s.fresh
    · rw [hf, hg]
    · rw [hf, hself, hother g hg] at heq
      have := hi.le g
      omega
    · rw [hg, hself, hother f hf] at heq
      have := hi.le f
      omega
    · rw [hother f hf] at heq hne
      rw [hother g hg] at heq
      exact hi.unique f g heq hne
  | free f =>
    generalize hs' : ({ s with mount := update s.mount f { s.mount f with mountid := 0 } } : St) = s'
    have hself : s'.id f = 0 := by
      rw [← hs', St.id]
      dsimp only
      rw [update_self]
    have hother : ∀ g, g ≠ f → s'.id g = s.id g := by
      intro g hg
      rw [← hs', St.id]
      dsimp only
      rw [update_of_ne hg, St.id]
    have hctr : s'.mountid = s.mountid ∧ s'.fresh = s.fresh := by
      rw [← hs']
      exact ⟨rfl, rfl⟩
    refine ⟨fun g => ?_, fun g hg => ?_, fun g g' heq hne => ?_⟩
    · by_cases hg : g = f
      · rw [hg, hself]
        exact zero_le
      · rw [hother g hg, hctr.1]
        exact hi.le g
    · by_cases hgf : g = f
      · rw [hgf, hself]
      · rw [hother g hgf]
        exact hi.new g (hctr.2 ▸ hg)
    · have hg : g ≠ f := fun h => hne (h ▸ hself)
      have hg' : g' ≠ f := fun h => by
        rw [h, hself] at heq
        exact hne heq
      rw [hother g hg] at heq hne
      rw [hother g' hg'] at heq
      exact hi.unique g g' heq hne
  | other hid hctr hfresh =>
    refine ⟨fun f => ?_, fun f hf => ?_, ?_⟩
    · rw [hid, hctr]
      exact hi.le f
    · rw [hid]
      exact hi.new f (le_trans hfresh hf)
    · rw [hid]
      exact hi.unique

theorem Prims.ids (h : Prims s s') (hs : s'.mountid < 2 ^ 31) (hi : Ids s) : Ids s' := by
  induction h with
  | refl => exact hi
  | tail h h' ih => exact h'.ids hs (ih (lt_of_le_of_lt h'.mountid_le hs))

theorem Prims.other (hid : s'.id = s.id) (hctr : s'.mountid = s.mountid) (hfresh : s.fresh ≤ s'.fresh) : Prims s s' :=
  .single (.other hid hctr hfresh)

theorem Prims.after {s₁ : St} (h : Prims s₁ s') (hid : s₁.id = s.id) (hctr : s₁.mountid = s.mountid)
    (hfresh : s.fresh ≤ s₁.fresh) : Prims s s' :=
  .head (.other hid hctr hfresh) h

/-! ### All but the renumbering -/

theorem prims_newmount (mh : Nat) (toc : Chan) (flag : BitVec 32) (spec : Option String) :
    Prims s (newmount mh toc flag spec s).2 := by
  unfold newmount
  split
  · exact .refl
  · exact Prims.after (.single (.put mh toc flag spec { s with room := s.room - 1 })) rfl rfl (le_refl _)

theorem prims_others (ns : List Newmount) : Prims s (others ns s) := by
  induction ns generalizing s with
  | nil => exact .refl
  | cons n ns ih => exact .head (.put ..) ih

theorem prims_mountfree {n : Nat} {v : Option Nat} : Prims s (mountfree n v s) := by
  induction n generalizing v s with
  | zero => exact .refl
  | succ n ih =>
    cases v with
    | none => exact .refl
    | some m => exact .head (.free m s) ih

theorem prims_copyUnion {m n : Nat} (flg : BitVec 32) {v : Option Nat} {h : MCell} :
    Prims s (copyUnion m flg n v h s).2 := by
  induction n generalizing v h s with
  | zero => exact .refl
  | succ n ih =>
    cases v with
    | none => exact .refl
    | some um =>
      have hnew := prims_newmount (s := s) m ((s.mount um).toc) flg ((s.mount um).spec)
      unfold copyUnion
      generalize newmount m (s.mount um).toc flg (s.mount um).spec s = r at *
      obtain ⟨f, s₁⟩ := r
      cases f with
      | none => exact hnew
      | some f => exact hnew.trans (Prims.after ih rfl rfl (le_refl _))

theorem prims_attach {m nm : Nat} {flag : BitVec 32} : Prims s (attach m nm flag s) := by
  have hreplace : ∀ s, Prims s (replace m (flag &&& MORDER) s) := by
    intro s
    unfold replace
    split
    · exact prims_mountfree.tail (.other rfl rfl (le_refl _))
    · exact .refl
  have hmcreate : ∀ s, Prims s (setMcreate nm flag s) := by
    intro s
    unfold setMcreate
    split
    · refine .other (funext fun f => ?_) rfl (le_refl _)
      unfold St.id
      dsimp only
      by_cases hf : f = nm
      · rw [hf, update_self]
      · rw [update_of_ne hf]
    · exact .refl
  have hsplice : ∀ s, Prims s (splice m nm (flag &&& MORDER) s) := by
    intro s
    unfold splice
    split <;> exact .other rfl rfl (le_refl _)
  exact ((hreplace s).trans (hmcreate _)).trans (hsplice _)

theorem prims_mountOn {m : Nat} (new : Chan) (umh : Option Nat) (flag : BitVec 32) (spec : Option String) :
    Prims s (mountOn m new umh flag spec s).2 := by
  have hnew := prims_newmount (s := s) m new flag spec
  unfold mountOn
  generalize newmount m new flag spec s = r at *
  obtain ⟨nm, s₁⟩ := r
  cases nm with
  | none => exact hnew
  | some nm =>
    dsimp only
    have hcopy := prims_copyUnion (s := s₁) (m := m) (n := s₁.fuel) (h := .next nm)
      (v := (umh.bind fun mh => s₁.next (.mount mh)).bind fun um => s₁.next (.next um))
      (if flag &&& MORDER = MREPL then MAFTER else flag &&& MORDER)
    generalize copyUnion m _ _ _ _ s₁ = r at *
    obtain ⟨b, s₂⟩ := r
    cases b with
    | false => exact hnew.trans hcopy
    | true => exact (hnew.trans hcopy).trans prims_attach

theorem prims_mountHead (pg : Nat) (old : Chan) (order : BitVec 32) : Prims s (mountHead pg old order s).2 := by
  unfold mountHead
  generalize s.lookup pg old.loc = l
  obtain ⟨l, _ | m⟩ := l
  · dsimp only
    generalize hs₁ : ({ newmhead old s with hash := update (newmhead old s).hash l (some s.fresh) } : St) = s₁
    have hhead : Prims s s₁ := by
      rw [← hs₁]
      exact .other rfl rfl (Nat.le_succ _)
    split
    · exact hhead
    have hnew := prims_newmount (s := s₁) s.fresh old 0 none
    generalize newmount s.fresh old 0 none s₁ = r at *
    obtain ⟨f, s₂⟩ := r
    cases f with
    | none => exact (hhead.trans hnew).tail (.other rfl rfl (le_refl _))
    | some f => exact (hhead.trans hnew).tail (.other rfl rfl (le_refl _))
  · exact .refl

theorem prims_cmount {pg : Nat} {new old : Chan} {umh : Option Nat} {flag : BitVec 32} {spec : Option String} :
    Prims s (cmount pg new old umh flag spec s).2 := by
  by_cases hr : refused s new old umh flag
  · obtain ⟨e, he⟩ := cmount_refused pg spec hr
    rw [he]
  rw [cmount_eq hr]
  have hhead := prims_mountHead (s := s) pg old (flag &&& MORDER)
  generalize mountHead pg old (flag &&& MORDER) s = r at *
  obtain ⟨m, s₁⟩ := r
  cases m with
  | none => exact hhead
  | some m => exact hhead.trans (prims_mountOn _ _ _ _)

theorem prims_cunmount {pg : Nat} {mnt : Loc} {mounted : Option Loc} : Prims s (cunmount pg mnt mounted s).2 := by
  unfold cunmount
  generalize s.lookup pg mnt = l
  obtain ⟨l, _ | m⟩ := l
  · exact .refl
  cases mounted with
  | none =>
    dsimp only
    generalize hs₁ : ({ s with hash := update s.hash l (s.hash (.hash m)) } : St) = s₁
    have hfree : Prims s (mountfree s₁.fuel (s.next (.mount m)) s₁) := by
      rw [← hs₁]
      exact Prims.after prims_mountfree rfl rfl (le_refl _)
    exact hfree.tail (.other rfl rfl (le_refl _))
  | some c =>
    dsimp only
    generalize unlinkFirst .next (isMounted s c) s.fuel (.mount m) s.next = u
    obtain ⟨u, _ | f⟩ := u
    · exact .refl
    have hfree : Prims s (mountfree ({ s with next := update u (.next f) none } : St).fuel (some f)
        { s with next := update u (.next f) none }) :=
      Prims.after prims_mountfree rfl rfl (le_refl _)
    dsimp only
    split
    · exact hfree.tail (.other rfl rfl (le_refl _))
    · exact hfree

theorem prims_closepgrp (pg : Nat) : Prims s (closepgrp pg s) := by
  have hheads : ∀ n v s, Prims s (closeHeads n v s) := by
    intro n
    induction n with
    | zero => exact fun _ _ => .refl
    | succ n ih =>
      intro v s
      cases v with
      | none => exact .refl
      | some f =>
        rw [closeHeads]
        exact prims_mountfree.trans (Prims.after (ih _ _) rfl rfl (le_refl _))
  have hbuckets : ∀ is s, Prims s (closeBuckets pg is s) := by
    intro is
    induction is with
    | nil => exact fun _ => .refl
    | cons i is ih => exact fun s => (hheads _ _ _).trans (ih _)
  unfold closepgrp
  dsimp only
  split
  · exact .other rfl rfl (le_refl _)
  · exact Prims.after (hbuckets _ _) rfl rfl (le_refl _)

variable (env) in
theorem prims_copyBuckets (topg frmpg : Nat) (is order : List Nat) :
    Prims s (copyBuckets env topg frmpg is order s).2.2 := by
  have hmount : ∀ ns mh m link s, Prims s (copyMount ns mh m link s) := by
    intro ns mh m link s
    have hput : Prims s
        (putmount mh (s.mount m).toc (s.mount m).mflag (s.mount m).spec { others ns s with room := s.room - 1 }) :=
      (prims_others ns).trans (Prims.after (.single (.put ..)) rfl rfl (le_refl _))
    refine hput.tail (.other (funext fun f => ?_) rfl (le_refl _))
    unfold St.id copyMount
    dsimp only
    by_cases hf : f = m
    · rw [hf, update_self]
    · rw [update_of_ne hf]
  have hmounts : ∀ mh n v link order s, Prims s (copyMounts env mh n v link order s).2.2 := by
    intro mh n
    induction n with
    | zero => exact fun _ _ _ _ => .refl
    | succ n ih =>
      intro v link order s
      cases v with
      | none => exact .refl
      | some m =>
        by_cases hroom : s.room = 0
        · rw [copyMounts, newmount, room_others, if_pos hroom]
          exact prims_others _
        · rw [copyMounts_succ _ _ _ _ hroom]
          exact (hmount _ _ _ _ _).trans (ih _ _ _ _)
  have hheads : ∀ n v l order s, Prims s (copyHeads env n v l order s).2.2 := by
    intro n
    induction n with
    | zero => exact fun _ _ _ _ => .refl
    | succ n ih =>
      intro v l order s
      cases v with
      | none => exact .refl
      | some q =>
        by_cases hroom : s.room = 0
        · rw [copyHeads, if_pos hroom]
        rw [copyHeads_succ _ _ hroom]
        have hhead : Prims s (copyHead q l s) := .other rfl rfl (Nat.le_succ _)
        have hcopy := hmounts s.fresh (copyHead q l s).fuel ((copyHead q l s).next (.mount q)) (.mount s.fresh) order
          (copyHead q l s)
        generalize copyMounts env s.fresh (copyHead q l s).fuel ((copyHead q l s).next (.mount q))
          (.mount s.fresh) order
          (copyHead q l s) = r at *
        obtain ⟨b, order', s₁⟩ := r
        cases b with
        | false => exact hhead.trans hcopy
        | true => exact (hhead.trans hcopy).trans (ih _ _ _ _)
  induction is generalizing order s with
  | nil => exact .refl
  | cons i is ih =>
    have hcopy := hheads s.fuel (s.hash (.bucket frmpg i)) (.bucket topg i) order s
    unfold copyBuckets
    generalize copyHeads env s.fuel (s.hash (.bucket frmpg i)) (.bucket topg i) order s = r at *
    obtain ⟨b, order', s₁⟩ := r
    cases b with
    | false => exact hcopy
    | true => exact hcopy.trans (ih _)

/-- The id given out last is that of a copy. -/
def LastCopy (order : List Nat) (s : St) : Prop := order = [] ∨ ∃ m ∈ order, s.id (s.cp m) = toUlong s.mountid

variable (env) in
theorem lastCopy_copyMounts (mh : Nat) {n : Nat} {v : Option Nat} (link : MCell) {order : List Nat}
    (h : LastCopy order s)
    (hr : (copyMounts env mh n v link order s).1 = true) :
    LastCopy (copyMounts env mh n v link order s).2.1 (copyMounts env mh n v link order s).2.2 := by
  induction n generalizing v link order s with
  | zero => exact h
  | succ n ih =>
    cases v with
    | none => exact h
    | some m =>
      by_cases hroom : s.room = 0
      · rw [copyMounts, newmount, room_others, if_pos hroom] at hr
        cases hr
      rw [copyMounts_succ _ _ _ _ hroom] at hr ⊢
      refine ih _ (.inr ⟨m, pgrpinsert_perm.mem_iff.2 (mem_cons_self ..), ?_⟩) hr
      have hcp : (copyMount (env order.length) mh m link s).cp m = (others (env order.length) s).fresh := by
        unfold St.cp copyMount
        dsimp only
        rw [update_self]
        rfl
      rw [hcp]
      unfold St.id copyMount
      dsimp only
      by_cases hm : (others (env order.length) s).fresh = m
      · rw [← hm, update_self]
        dsimp only [putmount]
        rw [update_self]
      · rw [update_of_ne hm]
        dsimp only [putmount]
        rw [update_self]

variable (env) in
theorem lastCopy_copyHeads {n : Nat} {v : Option Nat} {l : HCell} {order : List Nat} (h : LastCopy order s)
    (hr : (copyHeads env n v l order s).1 = true) :
    LastCopy (copyHeads env n v l order s).2.1 (copyHeads env n v l order s).2.2 := by
  induction n generalizing v l order s with
  | zero => exact h
  | succ n ih =>
    cases v with
    | none => exact h
    | some q =>
      by_cases hroom : s.room = 0
      · rw [copyHeads, if_pos hroom] at hr
        cases hr
      rw [copyHeads_succ _ _ hroom] at hr ⊢
      have hhead : LastCopy order (copyHead q l s) := h
      have hcopy := lastCopy_copyMounts (n := (copyHead q l s).fuel) (v := (copyHead q l s).next
        (.mount q)) env s.fresh (.mount s.fresh) hhead
      generalize copyMounts env s.fresh (copyHead q l s).fuel ((copyHead q l s).next (.mount q))
        (.mount s.fresh) order
        (copyHead q l s) = r at *
      obtain ⟨b, order', s₁⟩ := r
      cases b with
      | false => cases hr
      | true => exact ih (hcopy rfl) hr

variable (env) in
theorem lastCopy_copyBuckets (topg frmpg : Nat) (is : List Nat) (order : List Nat) (h : LastCopy order s)
    (hr : (copyBuckets env topg frmpg is order s).1 = true) :
    LastCopy (copyBuckets env topg frmpg is order s).2.1 (copyBuckets env topg frmpg is order s).2.2 := by
  induction is generalizing order s with
  | nil => exact h
  | cons i is ih =>
    have hcopy := lastCopy_copyHeads (n := s.fuel) (v := s.hash (.bucket frmpg i)) (l := .bucket topg i) env h
    unfold copyBuckets at hr ⊢
    generalize copyHeads env s.fuel (s.hash (.bucket frmpg i)) (.bucket topg i) order s = r at *
    obtain ⟨b, order', s₁⟩ := r
    cases b with
    | false => cases hr
    | true => exact ih _ (hcopy rfl) hr

variable (s) in
theorem others_last {ns : List Newmount} (hns : ns ≠ []) :
    ∃ g, s.fresh ≤ g ∧ 0 < (others ns s).mountid ∧ (others ns s).id g = toUlong (others ns s).mountid := by
  cases ns using List.reverseRecOn with
  | nil => exact absurd rfl hns
  | append_singleton ns n =>
    have hlast : others (ns ++ [n]) s = putmount n.mh n.toc n.flag n.spec (others ns s) := by
      unfold others
      rw [foldl_append]
      rfl
    rw [hlast]
    refine ⟨(others ns s).fresh, (Alloc.refl.others ns).fresh, Nat.succ_pos _, ?_⟩
    unfold St.id putmount
    dsimp only
    rw [update_self]

theorem pgrpinsert_sorted {id : Nat → Nat} {m : Nat} {order : List Nat} (h : order.Pairwise fun f g => id f ≤ id g) :
    (pgrpinsert id m order).Pairwise fun f g => id f ≤ id g := by
  induction order with
  | nil => exact pairwise_singleton _ _
  | cons f fs ih =>
    obtain ⟨hf, hfs⟩ := pairwise_cons.1 h
    rw [pgrpinsert]
    split
    · next hlt =>
      refine pairwise_cons.2 ⟨fun g hg => ?_, h⟩
      rcases mem_cons.1 hg with rfl | hg
      · exact le_of_lt hlt
      · exact le_trans (le_of_lt hlt) (hf g hg)
    · next hle =>
      refine pairwise_cons.2 ⟨fun g hg => ?_, ih hfs⟩
      rcases mem_cons.1 (pgrpinsert_perm.mem_iff.1 hg) with rfl | hg
      · exact le_of_not_gt hle
      · exact hf g hg

theorem insertAll_sorted (id : Nat → Nat) (ms : List Nat) (order : List Nat)
    (h : order.Pairwise fun f g => id f ≤ id g) :
    (insertAll id ms order).Pairwise fun f g => id f ≤ id g := by
  induction ms generalizing order with
  | nil => exact h
  | cons m ms ih => exact ih _ (pgrpinsert_sorted h)

theorem renumber_id (order : List Nat) (hcopy : ∀ m ∈ order, (s.mount m).copy = some (s.cp m))
    (hnd : (order.map s.cp).Nodup) : (renumber order s).mountid = s.mountid + order.length ∧
      ∀ f, (renumber order s).id f =
        if f ∈ order.map s.cp then toUlong (s.mountid + (order.map s.cp).idxOf f) else s.id f := by
  induction order generalizing s with
  | nil => exact ⟨rfl, fun f => rfl⟩
  | cons m order ih =>
    obtain ⟨hnot, hnd⟩ := nodup_cons.1 hnd
    generalize hs₁ : ({ s with
      mount := update s.mount (s.cp m) { s.mount (s.cp m) with mountid := toUlong s.mountid }
      mountid := s.mountid + 1 } : St) = s₁
    have hstep : renumber (m :: order) s = renumber order s₁ := by
      rw [renumber, hcopy m (by simp), ← hs₁]
    have hcopy₁ : ∀ f, (s₁.mount f).copy = (s.mount f).copy := by
      intro f
      rw [← hs₁]
      dsimp only
      by_cases hf : f = s.cp m
      · rw [hf, update_self]
      · rw [update_of_ne hf]
    have hcp : s₁.cp = s.cp := funext fun f => by rw [St.cp, hcopy₁, St.cp]
    have hctr : s₁.mountid = s.mountid + 1 := by rw [← hs₁]
    have hid : ∀ f, s₁.id f = if f = s.cp m then toUlong s.mountid else s.id f := by
      intro f
      rw [← hs₁, St.id]
      dsimp only
      split
      · next hf => rw [hf, update_self]
      · next hf => rw [update_of_ne hf, St.id]
    obtain ⟨hm, hids⟩ := ih (s := s₁) (fun f hf => by rw [hcopy₁, hcp]; exact hcopy f (by simp [hf])) (by rwa [hcp])
    rw [hstep]
    refine ⟨by rw [hm, hctr, length_cons]; omega, fun f => ?_⟩
    rw [hids, hcp, hid, hctr, map_cons]
    by_cases hf : f = s.cp m
    · rw [if_neg (hf ▸ hnot), if_pos hf, if_pos (by simp [hf]), hf, idxOf_cons_self, add_zero]
    · by_cases hmem : f ∈ order.map s.cp
      · rw [if_pos hmem, if_pos (mem_cons_of_mem _ hmem), idxOf_cons_ne _ (Ne.symm hf), Nat.succ_add]
        rfl
      · rw [if_neg hmem, if_neg hf, if_neg (by simp [hf, hmem])]

theorem idxOf_lt_iff {id : Nat → Nat} {order : List Nat} {f g : Nat} (h : order.Pairwise fun f g => id f < id g)
    (hf : f ∈ order) (hg : g ∈ order) : order.idxOf f < order.idxOf g ↔ id f < id g := by
  induction order with
  | nil => cases hf
  | cons m order ih =>
    obtain ⟨hm, h⟩ := pairwise_cons.1 h
    by_cases hfm : f = m <;> by_cases hgm : g = m
    · rw [hfm, hgm]
      exact ⟨fun h => absurd h (lt_irrefl _), fun h => absurd h (lt_irrefl _)⟩
    · have hg : g ∈ order := (mem_cons.1 hg).resolve_left hgm
      rw [hfm, idxOf_cons_self, idxOf_cons_ne _ (Ne.symm hgm)]
      exact ⟨fun _ => hm g hg, fun _ => Nat.succ_pos _⟩
    · have hf : f ∈ order := (mem_cons.1 hf).resolve_left hfm
      rw [hgm, idxOf_cons_self]
      have := hm f hf
      omega
    · rw [idxOf_cons_ne _ (Ne.symm hfm), idxOf_cons_ne _ (Ne.symm hgm)]
      have := ih h ((mem_cons.1 hf).resolve_left hfm) ((mem_cons.1 hg).resolve_left hgm)
      omega

theorem idxOf_map {g : Nat → Nat} {order : List Nat} {f : Nat} (hinj : (order.map g).Nodup) (hf : f ∈ order) :
    (order.map g).idxOf (g f) = order.idxOf f := by
  induction order with
  | nil => cases hf
  | cons m order ih =>
    obtain ⟨hnot, hnd⟩ := nodup_cons.1 hinj
    rw [map_cons]
    by_cases hfm : f = m
    · rw [hfm, idxOf_cons_self, idxOf_cons_self]
    · have hf : f ∈ order := (mem_cons.1 hf).resolve_left hfm
      have hne : g m ≠ g f := fun heq => hnot (heq ▸ mem_map_of_mem hf)
      rw [idxOf_cons_ne _ hne, idxOf_cons_ne _ (Ne.symm hfm), ih hnd hf]

/-- The mounts of a group, in the order in which they are copied. -/
def mountsOf (hs : Nat → Nat → List Nat) (fs : Nat → List Nat) (pg : Nat) : List Nat := (headsOf hs pg).flatMap fs

theorem copyRows_ok {room : Nat} {rows : List Row} (h : (copyRows room rows).1 = true) :
    (copyRows room rows).2.1 = rows := by
  induction rows generalizing room with
  | nil => rfl
  | cons row rows ih =>
    obtain ⟨a, ms⟩ := row
    unfold copyRows at h ⊢
    split at h
    · cases h
    · split at h
      · next hroom hlen =>
        rw [if_neg hroom, if_pos hlen]
        exact congrArg _ (ih h)
      · cases h

/-- A fork, up to where the copies get their ids. -/
structure Forked (s s₁ : St) (topg frmpg : Nat) (hs : Nat → Nat → List Nat) (fs : Nat → List Nat)
    (own' : Nat → Nat) (hs' : Nat → Nat → List Nat) (fs' : Nat → List Nat) : Prop where
  ok : Ok s₁ own' hs' fs'
  prims : Prims s s₁
  rows : rowsOf s₁ hs' fs' topg = (rowsOf s hs fs frmpg).map (Row.map s₁.cp)
  copied : ∀ m ∈ mountsOf hs fs frmpg, Copied s s₁ m
  last : LastCopy (insertAll s.id (mountsOf hs fs frmpg) []) s₁
  given : Given s fs → Given s₁ fs'

variable (env) in
theorem pgrpcpy_forked {topg frmpg : Nat} (h : Ok s own hs fs) (hpg : frmpg ≠ topg) (hclear : s.clear topg = true)
    (hdone : (pgrpcpy env topg frmpg s).1 = .ok ()) :
    let order := insertAll s.id (mountsOf hs fs frmpg) []
    ∃ s₁ own' hs' fs', Forked s s₁ topg frmpg hs fs own' hs' fs' ∧
      (pgrpcpy env topg frmpg s).2 = renumber order (others (env order.length) s₁) := by
  intro order
  obtain ⟨own', hs', fs', hok, -, -, -, -, hrows, hr, hcopies, horder, hgiven⟩ :=
    copyBuckets_spec env (List.range MNTHASH) [] h hpg (fun i _ => h.hs_eq_nil_of_clear hclear i) nodup_range nofun
  have hprims := prims_copyBuckets (s := s) env topg frmpg (List.range MNTHASH) []
  have hlast := lastCopy_copyBuckets (s := s) env topg frmpg (List.range MNTHASH) [] (.inl rfl)
  unfold pgrpcpy at hdone ⊢
  generalize copyBuckets env topg frmpg (List.range MNTHASH) [] s = b at *
  obtain ⟨b, order', s₁⟩ := b
  cases b with
  | false => cases hdone
  | true =>
    obtain rfl : order' = order := horder rfl
    have hall := copyRows_ok hr.symm
    rw [hall] at hrows hcopies
    refine ⟨s₁, own', hs', fs', ⟨hok, hprims, hrows, fun m hm => hcopies m ?_, hlast rfl, hgiven⟩, rfl⟩
    obtain ⟨q, hq, hm⟩ := mem_flatMap.1 hm
    exact mem_flatMap.2 ⟨s.row fs q, mem_map_of_mem hq, hm⟩

theorem Ok.mountsOf_nodup {pg : Nat} (h : Ok s own hs fs) : (mountsOf hs fs pg).Nodup := by
  have hheads : (headsOf hs pg).Nodup := by
    unfold headsOf
    refine nodup_flatMap.2 ⟨fun i _ => (h.hash pg i).nodup, ?_⟩
    refine nodup_range.imp fun {i j} hij => ?_
    rw [onFun, disjoint_left]
    intro m hi hj
    exact hij ((h.bucket pg i m hi).2.1.symm.trans (h.bucket pg j m hj).2.1)
  refine nodup_flatMap.2 ⟨fun m _ => (h.next m).nodup, ?_⟩
  refine hheads.imp fun {m m'} hne => ?_
  rw [onFun, disjoint_left]
  intro f hf hf'
  exact hne ((h.heads m f hf).1.symm.trans (h.heads m' f hf').1)

theorem flatMap_rowsOf {pg : Nat} : (rowsOf s hs fs pg).flatMap Prod.snd = mountsOf hs fs pg := by
  unfold rowsOf mountsOf
  rw [flatMap_map]
  rfl

namespace Forked
variable {s₁ : St} {topg frmpg : Nat} {own' : Nat → Nat} {hs' : Nat → Nat → List Nat} {fs' : Nat → List Nat}

theorem copies_eq (h : Forked s s₁ topg frmpg hs fs own' hs' fs') :
    mountsOf hs' fs' topg = (mountsOf hs fs frmpg).map s₁.cp := by
  rw [← flatMap_rowsOf (s := s₁), h.rows, flatMap_map, ← flatMap_rowsOf (s := s), map_flatMap]
  rfl

theorem nodup (h : Forked s s₁ topg frmpg hs fs own' hs' fs') :
    ((insertAll s.id (mountsOf hs fs frmpg) []).map s₁.cp).Nodup := by
  have hnd : ((mountsOf hs fs frmpg).map s₁.cp).Nodup := h.copies_eq ▸ h.ok.mountsOf_nodup
  exact ((insertAll_perm _ _ _).map s₁.cp).nodup_iff.2 hnd

end Forked

def St.mountids (s : St) (pg : Nat) (a : Loc) : Option (List Nat) := (s.lookup pg a).2.map fun m => (s.list m).map s.id

/-- The ids in the copy are ordered as those they are copied from. -/
def SameOrder (s s' : St) (frmpg topg : Nat) : Prop :=
  ∀ (a b : Loc) (xs ys xs' ys' : List Nat), s.mountids frmpg a = some xs → s.mountids frmpg b = some ys →
    s'.mountids topg a = some xs' → s'.mountids topg b = some ys' →
    ∀ (i j x y x' y' : Nat), xs[i]? = some x → ys[j]? = some y → xs'[i]? = some x' → ys'[j]? = some y' →
      (x < y ↔ x' < y')

/-- What a fork has to bring about. -/
def Forks (s s' : St) (frmpg topg : Nat) : Prop :=
  (∀ a, s'.members topg a = s.members frmpg a) ∧ SameOrder s s' frmpg topg ∧ Unique s'

def St.copies (s : St) (pg : Nat) : Nat := ((s.rows pg).map fun r => r.2.length).sum

theorem Ok.lookup_rows {β : Type} (h : Ok s own hs fs) (pg : Nat) (a : Loc) (g : Nat → β) :
    ((s.lookup pg a).2.map fun m => (s.list m).map g) =
      ((rowsOf s hs fs pg).find? fun r => eqchan r.1 a).map fun r => r.2.map g := by
  unfold rowsOf
  rw [List.find?_map]
  cases hfind : (headsOf hs pg).find? ((fun r => eqchan r.1 a) ∘ s.row fs) with
  | some m =>
    have hm := mem_of_find?_eq_some hfind
    have hp : ((fun r : Row => eqchan r.1 a) ∘ s.row fs) m = true := List.find?_some hfind
    have hloc : s.loc m = a := eqchan_iff.1 hp
    rw [← hloc, h.lookup_of_mem (h.mem_headsOf.1 hm), map_some, h.list_eq]
    rfl
  | none =>
    cases hlook : (s.lookup pg a).2 with
    | none => rfl
    | some m =>
      obtain ⟨hm, rfl⟩ := h.lookup_some hlook
      exact absurd (eqchan_iff.2 rfl) (List.find?_eq_none.1 hfind m (h.mem_headsOf.2 hm))

theorem copies_eq {pg : Nat} (h : Ok s own hs fs) : s.copies pg = (mountsOf hs fs pg).length := by
  rw [St.copies, h.rows_eq, ← flatMap_rowsOf (s := s), length_flatMap]

theorem St.given.id_eq {f : Nat} (h : s.given f) (hs : s.mountid < 2 ^ 31) : 0 < s.id f ∧ s.id f ≤ s.mountid := by
  obtain ⟨k, hk, hle, hid⟩ := h
  rw [toUlong_eq (by omega)] at hid
  omega

namespace Forked
variable {s₁ : St} {topg frmpg : Nat} {own' : Nat → Nat} {hs' : Nat → Nat → List Nat} {fs' : Nat → List Nat}

theorem lookup_eq {β : Type} {s' : St} (h : Forked s s₁ topg frmpg hs fs own' hs' fs') (hok' : Ok s' own' hs' fs')
    (hloc : ∀ m < s₁.fresh, s'.loc m = s₁.loc m) (a : Loc) (g : Nat → β) :
    ((s'.lookup topg a).2.map fun m => (s'.list m).map g) =
      ((rowsOf s hs fs frmpg).find? fun r => eqchan r.1 a).map fun r => (r.2.map s₁.cp).map g := by
  have hrows : rowsOf s' hs' fs' topg = rowsOf s₁ hs' fs' topg := map_congr_left fun m hm => by
    rw [St.row, hloc m (h.ok.lt_of_headsOf hm), St.row]
  rw [hok'.lookup_rows, hrows, h.rows, List.find?_map, Option.map_map]
  rfl

theorem mem_mountsOf {r : Row} {a : Loc} (hr : (rowsOf s hs fs frmpg).find? (fun r => eqchan r.1 a) = some r) :
    ∀ m ∈ r.2, m ∈ mountsOf hs fs frmpg := by
  intro m hm
  rw [← flatMap_rowsOf (s := s)]
  exact mem_flatMap.2 ⟨r, mem_of_find?_eq_some hr, hm⟩

end Forked

/-- The copies of `order` have got their ids. -/
structure Renewed (cps : List Nat) (s₂ s' : St) : Prop where
  nodup : cps.Nodup
  ids : Ids s₂
  id : ∀ f, s'.id f = if f ∈ cps then s₂.mountid + cps.idxOf f else s₂.id f
  mountid : s'.mountid = s₂.mountid + cps.length
  fresh : s'.fresh = s₂.fresh
  lt : ∀ f ∈ cps, f < s₂.fresh

namespace Renewed
variable {cps : List Nat} {s₂ : St}

section
variable (h : Renewed cps s₂ s')
include h

theorem id_of_mem {f : Nat} (hf : f ∈ cps) : s'.id f = s₂.mountid + cps.idxOf f := by
  rw [h.id, if_pos hf]

theorem id_of_not_mem {f : Nat} (hf : f ∉ cps) : s'.id f = s₂.id f := by
  rw [h.id, if_neg hf]

theorem unique (hlast : ∀ c ∈ cps, ∀ f, s₂.id f = s₂.mountid → s₂.id f ≠ 0 → f ∈ cps) :
    Unique s' := by
  -- an id of a copy is not below the counter, the others are
  have hother : ∀ f g, f ∈ cps → g ∉ cps → s'.id f = s'.id g → s'.id g = 0 := by
    intro f g hf hg heq
    rw [h.id_of_mem hf, h.id_of_not_mem hg] at heq
    rw [h.id_of_not_mem hg]
    have hle := h.ids.le g
    by_contra hne
    exact hg (hlast f hf g (by omega) hne)
  intro f g heq hne
  by_cases hf : f ∈ cps <;> by_cases hg : g ∈ cps
  · rw [h.id_of_mem hf, h.id_of_mem hg] at heq
    exact (idxOf_inj hf).1 (by omega)
  · exact absurd (heq.trans (hother f g hf hg heq)) hne
  · exact absurd (hother g f hg hf heq.symm) hne
  · rw [h.id_of_not_mem hf] at heq hne
    rw [h.id_of_not_mem hg] at heq
    exact h.ids.unique f g heq hne

theorem ids_of_unique (hu : Unique s') : Ids s' := by
  refine ⟨fun f => ?_, fun f hf => ?_, hu⟩
  · by_cases hf : f ∈ cps
    · rw [h.id_of_mem hf, h.mountid]
      have := idxOf_lt_length_of_mem hf
      omega
    · rw [h.id_of_not_mem hf, h.mountid]
      exact Nat.le_add_right_of_le (h.ids.le f)
  · rw [h.fresh] at hf
    have hnot : f ∉ cps := fun hmem => Nat.not_lt.2 hf (h.lt f hmem)
    rw [h.id_of_not_mem hnot]
    exact h.ids.new f hf

end

end Renewed

theorem Forked.renewed {s₁ : St} {topg frmpg : Nat} {own' : Nat → Nat} {hs' : Nat → Nat → List Nat}
    {fs' : Nat → List Nat}
    {ns : List Newmount} {order : List Nat} (h : Ok s own hs fs) (hids : Ids s)
    (hfork : Forked s s₁ topg frmpg hs fs own' hs' fs') (horder : insertAll s.id (mountsOf hs fs frmpg) [] = order)
    (hlt : (renumber order (others ns s₁)).mountid < 2 ^ 31) :
    Renewed (order.map s₁.cp) (others ns s₁) (renumber order (others ns s₁)) := by
  have hperm := insertAll_perm s.id (mountsOf hs fs frmpg) []
  rw [nil_append, horder] at hperm
  have halloc : Alloc s₁ (others ns s₁) := Alloc.refl.others ns
  have hprims : Prims s₁ (others ns s₁) := prims_others _
  generalize others ns s₁ = s₂ at *
  have hcopied : ∀ m ∈ order, Copied s s₁ m ∧ m < s₁.fresh := by
    intro m hm
    have hm := hperm.mem_iff.1 hm
    obtain ⟨q, -, hmq⟩ := mem_flatMap.1 hm
    have hc := hfork.copied m hm
    have hlt := (h.heads q m hmq).2
    have := hc.fresh
    have := hc.lt
    exact ⟨hc, by omega⟩
  have hcp : ∀ m ∈ order, s₂.cp m = s₁.cp m := fun m hm => by
    rw [St.cp, halloc.mount m (hcopied m hm).2, St.cp]
  have hmap : order.map s₂.cp = order.map s₁.cp := map_congr_left hcp
  have hnd : (order.map s₁.cp).Nodup := horder ▸ hfork.nodup
  obtain ⟨hctr, hid⟩ := renumber_id (s := s₂) order
    (fun m hm => by rw [halloc.mount m (hcopied m hm).2, hcp m hm]; exact (hcopied m hm).1.copy) (hmap ▸ hnd)
  rw [hmap] at hid
  have hren := renumber_renumbered order (Renumbered.refl (s := s₂))
  generalize renumber order s₂ = s' at *
  refine ⟨hnd, hprims.ids (by omega) (hfork.prims.ids (by have := hprims.mountid_le; omega) hids), fun f => ?_,
    by rw [hctr, length_map], hren.fresh, fun f hf => ?_⟩
  · rw [hid]
    split
    · next hf =>
      have := idxOf_lt_length_of_mem hf
      rw [length_map] at this
      exact toUlong_eq (by omega)
    · rfl
  · obtain ⟨m, hm, rfl⟩ := mem_map.1 hf
    exact lt_of_lt_of_le (hcopied m hm).1.lt halloc.fresh

theorem order_sorted (pg : Nat) {order : List Nat} (h : Ok s own hs fs) (hids : Ids s) (hgiven : Given s fs)
    (hlt : s.mountid < 2 ^ 31) (horder : insertAll s.id (mountsOf hs fs pg) [] = order) :
    order.Pairwise fun f g => s.id f < s.id g := by
  have hperm := insertAll_perm s.id (mountsOf hs fs pg) []
  rw [nil_append, horder] at hperm
  have hsorted := insertAll_sorted s.id (mountsOf hs fs pg) [] List.Pairwise.nil
  rw [horder] at hsorted
  have hnd : order.Nodup := hperm.nodup_iff.2 h.mountsOf_nodup
  refine (hsorted.and hnd).imp_of_mem fun {f g} hf _ hfg => ?_
  obtain ⟨q, -, hfq⟩ := mem_flatMap.1 (hperm.mem_iff.1 hf)
  have hpos := ((hgiven q f hfq).id_eq hlt).1
  refine Nat.lt_of_le_of_ne hfg.1 fun heq => hfg.2 (hids.unique f g heq (by omega))

namespace Forked
variable {s₁ s₂ : St} {topg frmpg : Nat} {own' : Nat → Nat} {hs' : Nat → Nat → List Nat} {fs' : Nat → List Nat}
  {order : List Nat}

section
variable (h : Forked s s₁ topg frmpg hs fs own' hs' fs')
include h

theorem ok_after (halloc : Alloc s₁ s₂) (hren : Renumbered s₂ s') :
    Ok s' own' hs' fs' := hren.ok (halloc.ok h.ok)

theorem members_eq (hok : Ok s own hs fs) (halloc : Alloc s₁ s₂)
    (hren : Renumbered s₂ s') (a : Loc) : s'.members topg a = s.members frmpg a := by
  have hloc : ∀ m < s₁.fresh, s'.loc m = s₁.loc m := fun m _ => by rw [hren.loc, loc_eq_of_head halloc.head]
  unfold St.members
  rw [h.lookup_eq (h.ok_after halloc hren) hloc, hok.lookup_rows]
  cases hfind : (rowsOf s hs fs frmpg).find? fun r => eqchan r.1 a with
  | none => rfl
  | some r =>
    rw [map_some, map_some, map_map]
    refine congrArg some (map_congr_left fun m hm => ?_)
    have hc := h.copied m (mem_mountsOf hfind m hm)
    show s'.member (s₁.cp m) = s.member m
    rw [hren.member, St.member, halloc.mount _ hc.lt]
    exact hc.member

theorem sameOrder (hok : Ok s own hs fs) (halloc : Alloc s₁ s₂)
    (hren : Renumbered s₂ s') (hnew : Renewed (order.map s₁.cp) s₂ s') (hperm : order.Perm (mountsOf hs fs frmpg))
    (hsorted : order.Pairwise fun f g => s.id f < s.id g) : SameOrder s s' frmpg topg := by
  have hloc : ∀ m < s₁.fresh, s'.loc m = s₁.loc m := fun m _ => by rw [hren.loc, loc_eq_of_head halloc.head]
  -- an id, and the id of the copy
  have hget : ∀ (a : Loc) (xs xs' : List Nat), s.mountids frmpg a = some xs → s'.mountids topg a = some xs' →
      ∀ (i x x' : Nat), xs[i]? = some x → xs'[i]? = some x' →
        ∃ m ∈ order, x = s.id m ∧ x' = s₂.mountid + order.idxOf m := by
    intro a xs xs' hxs hxs' i x x' hx hx'
    unfold St.mountids at hxs hxs'
    rw [h.lookup_eq (h.ok_after halloc hren) hloc] at hxs'
    rw [hok.lookup_rows] at hxs
    cases hfind : (rowsOf s hs fs frmpg).find? fun r => eqchan r.1 a with
    | none =>
      rw [hfind] at hxs
      cases hxs
    | some r =>
      rw [hfind] at hxs hxs'
      obtain rfl : r.2.map s.id = xs := Option.some.inj hxs
      obtain rfl : (r.2.map s₁.cp).map s'.id = xs' := Option.some.inj hxs'
      rw [map_map, List.getElem?_map] at hx'
      rw [List.getElem?_map] at hx
      obtain ⟨m, hm, rfl⟩ := map_eq_some_iff.1 hx
      obtain ⟨m', hm', rfl⟩ := map_eq_some_iff.1 hx'
      obtain rfl : m = m' := Option.some.inj (hm.symm.trans hm')
      have hmem := hperm.mem_iff.2 (mem_mountsOf hfind m (mem_of_getElem? hm))
      refine ⟨m, hmem, rfl, ?_⟩
      show s'.id (s₁.cp m) = _
      rw [hnew.id_of_mem (mem_map_of_mem hmem), idxOf_map hnew.nodup hmem]
  intro a b xs ys xs' ys' hxs hys hxs' hys' i j x y x' y' hx hy hx' hy'
  obtain ⟨m, hm, rfl, rfl⟩ := hget a xs xs' hxs hxs' i x x' hx hx'
  obtain ⟨n, hn, rfl, rfl⟩ := hget b ys ys' hys hys' j y y' hy hy'
  rw [Nat.add_lt_add_iff_left]
  exact (idxOf_lt_iff hsorted hm hn).symm

theorem exists_last (hlt : s₁.mountid < 2 ^ 31)
    (hperm : order.Perm (mountsOf hs fs frmpg)) (hlast : LastCopy order s₁) (hne : order ≠ []) :
    ∃ m ∈ order, s₁.id (s₁.cp m) = s₁.mountid ∧ 0 < s₁.mountid := by
  obtain ⟨m, hm, hid⟩ := hlast.resolve_left hne
  have hid := hid.trans (toUlong_eq hlt)
  have hpos := ((h.copied m (hperm.mem_iff.1 hm)).given.id_eq hlt).1
  exact ⟨m, hm, hid, by omega⟩

theorem unique_iff {ns : List Newmount} (hlt : s'.mountid < 2 ^ 31)
    (hperm : order.Perm (mountsOf hs fs frmpg)) (hlast : LastCopy order s₁)
    (hnew : Renewed (order.map s₁.cp) (others ns s₁) s') : Unique s' ↔ order.length = 0 ∨ ns = [] := by
  have hctr := hnew.mountid
  have hle := (Alloc.refl (s := s₁)).others ns |>.ids
  constructor
  · intro hu
    by_contra hnot
    obtain ⟨hne, hns⟩ := not_or.1 hnot
    -- somebody else has the id given out last, and the first copy gets it
    obtain ⟨g, hg, hpos, hid⟩ := others_last s₁ hns
    generalize others ns s₁ = s₂ at *
    rw [toUlong_eq (by omega)] at hid
    have hgnot : g ∉ order.map s₁.cp := by
      intro hmem
      obtain ⟨m, hm, rfl⟩ := mem_map.1 hmem
      exact Nat.not_lt.2 hg (h.copied m (hperm.mem_iff.1 hm)).lt
    cases order with
    | nil => exact hne rfl
    | cons m order =>
      have hm : s₁.cp m ∈ (m :: order).map s₁.cp := mem_map_of_mem (mem_cons_self ..)
      have hfirst := hnew.id_of_mem hm
      rw [map_cons, idxOf_cons_self, add_zero] at hfirst
      have hgid := (hnew.id_of_not_mem hgnot).trans hid
      have heq := hu g (s₁.cp m) (hgid.trans hfirst.symm) (by omega)
      exact hgnot (heq ▸ hm)
  · intro hcond
    refine hnew.unique fun c hc f hf hid0 => ?_
    have hne : order ≠ [] := by
      rintro rfl
      cases hc
    obtain rfl : ns = [] := hcond.resolve_left fun h0 => hne (length_eq_zero_iff.1 h0)
    obtain ⟨m, hm, hid, hpos⟩ := h.exists_last (by omega) hperm hlast hne
    have hf : s₁.id f = s₁.mountid := hf
    obtain rfl := hnew.ids.unique f (s₁.cp m) (hf.trans hid.symm) (by show s₁.id f ≠ 0; omega)
    exact mem_map_of_mem hm

theorem given_after (halloc : Alloc s₁ s₂)
    (hnew : Renewed (order.map s₁.cp) s₂ s') (hpos : order ≠ [] → 0 < s₁.mountid) (hlt : s'.mountid < 2 ^ 31)
    (hgiven : Given s₁ fs') : Given s' fs' := by
  intro m f hf
  have hctr := hnew.mountid
  by_cases hmem : f ∈ order.map s₁.cp
  · have hidx := idxOf_lt_length_of_mem hmem
    have hne : order ≠ [] := by
      rintro rfl
      cases hmem
    have := hpos hne
    have := halloc.ids
    refine ⟨s₂.mountid + (order.map s₁.cp).idxOf f, by omega, by omega, ?_⟩
    rw [hnew.id_of_mem hmem, toUlong_eq (by omega)]
  · refine (hgiven m f hf).mono ?_ (by have := halloc.ids; omega)
    rw [hnew.id_of_not_mem hmem, St.id, halloc.mount f (h.ok.heads m f hf).2, St.id]

end

end Forked

variable (env) in
/-- A fork does what it has to, exactly if it copies nothing or nothing is mounted between the last copy and the
renumbering. -/
theorem forks_iff_of_ok {topg frmpg : Nat} (h : Ok s own hs fs) (hids : Ids s) (hgiven : Given s fs)
    (hpg : frmpg ≠ topg)
    (hclear : s.clear topg = true) (hdone : (pgrpcpy env topg frmpg s).1 = .ok ())
    (hlt : (pgrpcpy env topg frmpg s).2.mountid < 2 ^ 31) :
    (Forks s (pgrpcpy env topg frmpg s).2 frmpg topg ↔ s.copies frmpg = 0 ∨ env (s.copies frmpg) = []) ∧
      (s.copies frmpg = 0 ∨ env (s.copies frmpg) = [] →
        ∃ own' hs' fs', Ok (pgrpcpy env topg frmpg s).2 own' hs' fs' ∧ Ids (pgrpcpy env topg frmpg s).2 ∧
          Given (pgrpcpy env topg frmpg s).2 fs') := by
  obtain ⟨s₁, own', hs', fs', hfork, hr⟩ := pgrpcpy_forked env h hpg hclear hdone
  rw [hr] at hlt ⊢
  have hmem := insertAll_perm s.id (mountsOf hs fs frmpg) []
  have hlast := hfork.last
  have hnew := hfork.renewed h hids rfl hlt
  have hlen : s.copies frmpg = (insertAll s.id (mountsOf hs fs frmpg) []).length := by
    rw [copies_eq h, hmem.length_eq, nil_append]
  rw [nil_append] at hmem
  have hge := hfork.prims.mountid_le
  have hctr := hnew.mountid
  have halloc : Alloc s₁ (others (env (insertAll s.id (mountsOf hs fs frmpg) []).length) s₁) := Alloc.refl.others _
  have hren := renumber_renumbered (insertAll s.id (mountsOf hs fs frmpg) [])
    (Renumbered.refl (s := others (env (insertAll s.id (mountsOf hs fs frmpg) []).length) s₁))
  have hlts : s.mountid < 2 ^ 31 := by
    have := halloc.ids
    omega
  have hsorted := order_sorted frmpg h hids hgiven hlts rfl
  rw [hlen]
  generalize insertAll s.id (mountsOf hs fs frmpg) [] = order at *
  have hunique := hfork.unique_iff hlt hmem hlast hnew
  refine ⟨⟨fun hf => hunique.1 hf.2.2, fun hcond => ⟨hfork.members_eq h halloc hren,
    hfork.sameOrder h halloc hren hnew hmem hsorted, hunique.2 hcond⟩⟩, fun hcond => ?_⟩
  have hpos : order ≠ [] → 0 < s₁.mountid := fun hne => by
    have := halloc.ids
    obtain ⟨-, -, -, hpos⟩ := hfork.exists_last (by omega) hmem hlast hne
    exact hpos
  exact ⟨own', hs', fs', hfork.ok_after halloc hren, hnew.ids_of_unique (hunique.2 hcond),
    hfork.given_after halloc hnew hpos hlt (hfork.given hgiven)⟩

/-- No fork that copies something is disturbed between its last copy and the renumbering. -/
def Undisturbed (s : St) : Act → Prop
  | .pgrpcpy _ env _ frmpg => s.copies frmpg = 0 ∨ env (s.copies frmpg) = []
  | _ => True

def Listed (s : St) : Prop := ∃ own hs fs, Ok s own hs fs ∧ Given s fs

theorem listed_room {room : Nat} (h : Listed s) : Listed { s with room := room } := by
  obtain ⟨own, hs, fs, hok, hgiven⟩ := h
  exact ⟨own, hs, fs, hok.congr rfl rfl rfl (fun _ => rfl) rfl, hgiven⟩

theorem listed_mountOn {m : Nat} {new : Chan} {umh : Option Nat} {flag : BitVec 32} {spec : Option String}
    (h : Ok s own hs fs) (hgiven : Given s fs) (hm : m < s.fresh) : Listed (mountOn m new umh flag spec s).2 := by
  obtain ⟨hfail, hdone⟩ := mountOn_spec new umh flag spec h hm
  by_cases hroom : s.room ≤ (rest fs umh).length
  · have halloc := (hfail hroom).2
    exact ⟨own, hs, fs, halloc.ok h, halloc.lists h hgiven⟩
  · obtain ⟨-, -, hok, -, hgiven'⟩ := hdone (by omega)
    exact ⟨own, hs, _, hok, hgiven' hgiven⟩

theorem listed_cmount {pg : Nat} {new old : Chan} {umh : Option Nat} {flag : BitVec 32} {spec : Option String}
    (h : Listed s) : Listed (cmount pg new old umh flag spec s).2 := by
  by_cases hr : refused s new old umh flag
  · obtain ⟨e, he⟩ := cmount_refused pg spec hr
    rw [he]
    exact h
  obtain ⟨own, hs, fs, hok, hgiven⟩ := h
  cases hlook : (s.lookup pg old.loc).2 with
  | some m =>
    rw [cmount_old hr hlook]
    exact listed_mountOn hok hgiven (hok.bucket _ _ m (hok.lookup_some hlook).1).2.2
  | none =>
    obtain ⟨-, hsome, hlt, hok', -, -, -, hgiven'⟩ := mountHead_none (flag &&& MORDER) hok hlook
    have hgiven' := hgiven' hgiven
    rw [cmount_eq hr]
    generalize mountHead pg old (flag &&& MORDER) s = r at *
    obtain ⟨m, s₁⟩ := r
    dsimp only at *
    cases m with
    | none => exact ⟨_, _, _, hok', hgiven'⟩
    | some m =>
      obtain rfl : m = s.fresh := by
        split at hsome
        · exact Option.some.inj hsome
        · cases hsome
      exact listed_mountOn hok' hgiven' hlt

theorem listed_pgrpcpy_error {topg frmpg : Nat} (h : Listed s) (hpg : frmpg ≠ topg) (hclear : s.clear topg = true)
    (hfail : (pgrpcpy env topg frmpg s).1 ≠ .ok ()) :
    Listed (pgrpcpy env topg frmpg s).2 ∧ Prims s (pgrpcpy env topg frmpg s).2 := by
  obtain ⟨own, hs, fs, hok, hgiven⟩ := h
  obtain ⟨own', hs', fs', hok', -, -, -, -, -, -, -, -, hgiven'⟩ :=
    copyBuckets_spec env (List.range MNTHASH) [] hok hpg
      (fun i _ => hok.hs_eq_nil_of_clear hclear i) nodup_range nofun
  have hprims := prims_copyBuckets (s := s) env topg frmpg (List.range MNTHASH) []
  unfold pgrpcpy at hfail ⊢
  generalize copyBuckets env topg frmpg (List.range MNTHASH) [] s = b at *
  obtain ⟨b, order, s₁⟩ := b
  cases b with
  | false => exact ⟨⟨own', hs', fs', hok', hgiven' hgiven⟩, hprims⟩
  | true => exact absurd rfl hfail

theorem mountid_le_renumber {order : List Nat} : s.mountid ≤ (renumber order s).mountid := by
  induction order generalizing s with
  | nil => exact le_refl _
  | cons m order ih =>
    rw [renumber]
    cases (s.mount m).copy with
    | none => exact ih
    | some c =>
      refine le_trans ?_ ih
      exact Nat.le_succ _

theorem pgrpcpy_mountid_le {topg frmpg : Nat} : s.mountid ≤ (pgrpcpy env topg frmpg s).2.mountid := by
  have hcopy := (prims_copyBuckets (s := s) env topg frmpg (List.range MNTHASH) []).mountid_le
  unfold pgrpcpy
  generalize copyBuckets env topg frmpg (List.range MNTHASH) [] s = b at *
  obtain ⟨b, order, s₁⟩ := b
  cases b with
  | false => exact hcopy
  | true =>
    have hothers := (prims_others (s := s₁) (env order.length)).mountid_le
    exact le_trans hcopy (le_trans hothers mountid_le_renumber)

/-- As long as the counter has not run over. -/
def Numbered (s : St) : Prop := s.mountid < 2 ^ 31 → Listed s ∧ Ids s

theorem Numbered.of_prims (h : Numbered s) (hprims : Prims s s') (hlisted : Listed s → Listed s') : Numbered s' := by
  intro hlt
  obtain ⟨hl, hids⟩ := h (lt_of_le_of_lt hprims.mountid_le hlt)
  exact ⟨hlisted hl, hprims.ids hlt hids⟩

theorem numbered_step {a : Act} (h : Numbered s) (ha : Undisturbed s a) (hs : step s a = some s') : Numbered s' := by
  cases a with
  | newpgrp =>
    cases hs
    refine h.of_prims (.other rfl rfl (le_refl _)) ?_
    rintro ⟨own, hs, fs, hok, hgiven⟩
    exact ⟨own, _, fs, (newpgrp_spec hok).1, hgiven⟩
  | incref pg =>
    simp only [step, ite_none_right_eq_some] at hs
    cases hs.2
    refine h.of_prims (.other rfl rfl (le_refl _)) ?_
    rintro ⟨own, hs, fs, hok, hgiven⟩
    exact ⟨own, hs, fs, hok.congr rfl rfl rfl (fun _ => rfl) rfl, hgiven⟩
  | closepgrp pg =>
    simp only [step, ite_none_right_eq_some] at hs
    cases hs.2
    refine h.of_prims (prims_closepgrp _) ?_
    rintro ⟨own, hs, fs, hok, hgiven⟩
    obtain ⟨hok', -, hgiven'⟩ := closepgrp_spec pg hok
    exact ⟨own, hs, _, hok', hgiven' hgiven⟩
  | cmount room pg new old umh flag spec =>
    simp only [step, ite_none_right_eq_some] at hs
    cases hs.2
    exact h.of_prims (Prims.after prims_cmount rfl rfl (le_refl _)) fun hl => listed_cmount (listed_room hl)
  | cunmount pg mnt mounted =>
    simp only [step, ite_none_right_eq_some] at hs
    cases hs.2
    refine h.of_prims prims_cunmount ?_
    rintro ⟨own, hs, fs, hok, hgiven⟩
    by_cases hno : ∀ m, (s.lookup pg mnt).2 = some m → ∃ c, mounted = some c ∧ (fs m).find? (isMounted s c) = none
    · rw [(cunmount_error hok hno).1]
      exact ⟨own, hs, fs, hok, hgiven⟩
    · push Not at hno
      obtain ⟨m, hm, hfind⟩ := hno
      obtain ⟨-, -, hok', hgiven'⟩ := cunmount_spec hok hm hfind
      exact ⟨own, _, _, hok', hgiven' hgiven⟩
  | newmount n =>
    cases hs
    refine h.of_prims (prims_others [n]) ?_
    rintro ⟨own, hs, fs, hok, hgiven⟩
    have halloc : Alloc s (others [n] s) := Alloc.refl.others [n]
    exact ⟨own, hs, fs, halloc.ok hok, halloc.lists hok hgiven⟩
  | pgrpcpy room env topg frmpg =>
    simp only [step, ite_none_right_eq_some] at hs
    obtain ⟨⟨-, -, hpg, hclear⟩, hs⟩ := hs
    cases hs
    have h : Numbered { s with room := room } := h.of_prims (.other rfl rfl (le_refl _)) listed_room
    intro hlt
    obtain ⟨hl, hids⟩ := h (lt_of_le_of_lt pgrpcpy_mountid_le hlt)
    by_cases hdone : (pgrpcpy env topg frmpg { s with room := room }).1 = .ok ()
    · obtain ⟨own, hs, fs, hok, hgiven⟩ := hl
      obtain ⟨own', hs', fs', hok', hids', hgiven'⟩ := (forks_iff_of_ok _ hok hids hgiven hpg hclear hdone hlt).2 ha
      exact ⟨⟨own', hs', fs', hok', hgiven'⟩, hids'⟩
    · obtain ⟨hl', hprims⟩ := listed_pgrpcpy_error hl hpg hclear hdone
      exact ⟨hl', hprims.ids hlt hids⟩

theorem numbered_init : Numbered init := by
  obtain ⟨own, hs, fs, hok, -⟩ := inv_init
  intro _
  refine ⟨⟨own, hs, fs, hok, fun m f hf => absurd (hok.heads m f hf).2 (Nat.not_lt_zero f)⟩, fun f => le_refl 0,
    fun f _ => rfl, fun f g _ hne => absurd rfl hne⟩

/-- After an undisturbed run a fork brings about the same name space with ids of its own, exactly if it copies
nothing or nothing is mounted between its last copy and the renumbering. -/
theorem fork_iff (as : List Act) {room topg frmpg : Nat} (hrun : run step init as = some s)
    (has : Along step Undisturbed init as) (hstep : step s (.pgrpcpy room env topg frmpg) = some s')
    (hdone : (pgrpcpy env topg frmpg { s with room := room }).1 = .ok ()) (hlt : s'.mountid < 2 ^ 31) :
    Forks s s' frmpg topg ↔ Undisturbed s (.pgrpcpy room env topg frmpg) := by
  have hnum : Numbered s := (has.always (fun _ _ _ h ha hs => numbered_step h ha hs) numbered_init).last hrun
  simp only [step, Option.ite_none_right_eq_some] at hstep
  obtain ⟨⟨-, -, hpg, hclear⟩, hs⟩ := hstep
  cases hs
  have h : Numbered { s with room := room } := hnum.of_prims (.other rfl rfl (Nat.le_refl _)) listed_room
  obtain ⟨⟨own, hs, fs, hok, hgiven⟩, hids⟩ := h (Nat.lt_of_le_of_lt pgrpcpy_mountid_le hlt)
  exact (forks_iff_of_ok _ hok hids hgiven hpg hclear hdone hlt).1

def mountB : List Act := [.newpgrp, .newpgrp, .cmount 1 0 chanB chanA none MREPL none]

/-- `B` is on `A` in the copy, too. -/
theorem fork_iff_quiet :
    let s := (cmount 0 chanB chanA none MREPL none { newpgrp (newpgrp init) with room := 1 }).2
    let s' := (pgrpcpy (fun _ => []) 1 0 { s with room := 2 }).2
    Forks s s' 0 1 ↔ Undisturbed s (.pgrpcpy 2 (fun _ => []) 1 0) :=
  fork_iff mountB rfl (fun _ _ => ⟨trivial, fun _ _ => ⟨trivial, fun _ _ => ⟨trivial, trivial⟩⟩⟩) rfl rfl (by decide)

/-- Another process mounts something after the copy of `B`: its mount and the copy get the id 3. -/
theorem not_forks_newmount : ¬ ∀ as s env room topg frmpg s', run step init as = some s →
    step s (.pgrpcpy room env topg frmpg) = some s' →
    (pgrpcpy env topg frmpg { s with room := room }).1 = .ok () → Forks s s' frmpg topg := by
  intro h
  let env : Nat → List Newmount := fun k => if k = 1 then [⟨7, chanB, 0, none⟩] else []
  let s : St := (cmount 0 chanB chanA none MREPL none { newpgrp (newpgrp init) with room := 1 }).2
  let s' : St := (pgrpcpy env 1 0 { s with room := 2 }).2
  have hrun : run step init mountB = some s := rfl
  have hunique : Unique s' := (h mountB s env 2 1 0 s' hrun rfl rfl).2.2
  have hcopy : s'.id 3 = 3 := rfl
  have hother : s'.id 4 = 3 := rfl
  have heq : 3 = 4 := hunique 3 4 (hcopy.trans hother.symm) (by rw [hcopy]; exact nofun)
  cases heq

end Node9.Mounts
