import Node9.MountsInv

/-!
# Copying a name space

A row is a mount point with its list. `copyRows` says which rows are copied when `room` allocations succeed: one
for the `Mhead`, and one for each `Mount`. `pgrpcpy` comes to that, the mounts of the copy being `cp` of the
mounts they are copied from.
-/

namespace Node9.Mounts
open Linked Function
open List hiding Chain

abbrev Row := Loc × List Nat

def copyRows : Nat → List Row → Bool × List Row × Nat
  | room, [] => (true, [], room)
  | room, (a, ms) :: rows =>
    if room = 0 then (false, [], 0)
    else if ms.length ≤ room - 1 then
      let r := copyRows (room - 1 - ms.length) rows
      (r.1, (a, ms) :: r.2.1, r.2.2)
    else (false, [(a, ms.take (room - 1))], 0)

theorem copyRows_append {room : Nat} {rows rows' : List Row} : copyRows room (rows ++ rows') =
    let c := copyRows room rows
    if c.1 then
      let d := copyRows c.2.2 rows'
      (d.1, c.2.1 ++ d.2.1, d.2.2)
    else c := by
  induction rows generalizing room with
  | nil => rfl
  | cons row rows ih =>
    obtain ⟨a, ms⟩ := row
    simp only [cons_append, copyRows]
    split
    · rfl
    · split
      · rw [ih]
        dsimp only
        split <;> rfl
      · rfl

theorem copyRows_subset {room : Nat} {rows : List Row} {m : Nat}
    (hm : m ∈ (copyRows room rows).2.1.flatMap Prod.snd) : m ∈ rows.flatMap Prod.snd := by
  induction rows generalizing room with
  | nil => exact hm
  | cons row rows ih =>
    obtain ⟨a, ms⟩ := row
    rw [flatMap_cons, mem_append]
    unfold copyRows at hm
    split at hm
    · cases hm
    split at hm
    · rw [flatMap_cons, mem_append] at hm
      exact hm.imp_right ih
    · rw [flatMap_cons, mem_append] at hm
      rcases hm with hm | hm
      · exact .inl (mem_of_mem_take hm)
      · cases hm

def St.cp (s : St) (f : Nat) : Nat := (s.mount f).copy.getD 0

def St.row (s : St) (fs : Nat → List Nat) (m : Nat) : Row := (s.loc m, fs m)

def Row.map (g : Nat → Nat) (r : Row) : Row := (r.1, r.2.map g)

variable {s s' : St} {own : Nat → Nat} {hs : Nat → Nat → List Nat} {fs : Nat → List Nat}
  {env : Nat → List Newmount}

theorem Alloc.others {s₁ : St} (ns : List Newmount) (h : Alloc s s₁) : Alloc s (others ns s₁) := by
  induction ns generalizing s₁ with
  | nil => exact h
  | cons n ns ih => exact ih h.putmount

theorem room_others (ns : List Newmount) : (others ns s).room = s.room := by
  induction ns generalizing s with
  | nil => rfl
  | cons n ns ih => exact ih

/-- A step of the copy: only the copies of `ms` have been noted in the mounts that were there. -/
structure Noted (ms : List Nat) (s s' : St) : Prop where
  frame : Frame s s'
  mount : ∀ f < s.fresh, s'.mount f = { s.mount f with copy := (s'.mount f).copy }
  keep : ∀ f < s.fresh, f ∉ ms → (s'.mount f).copy = (s.mount f).copy
  ids : s.mountid ≤ s'.mountid

theorem Noted.refl {ms : List Nat} : Noted ms s s := ⟨.refl, fun _ _ => rfl, fun _ _ _ => rfl, le_refl _⟩

theorem Noted.mono {ms ms' : List Nat} (h : Noted ms s s') (hsub : ∀ m ∈ ms, m ∈ ms') : Noted ms' s s' :=
  ⟨h.frame, h.mount, fun f hf hf' => h.keep f hf fun hm => hf' (hsub f hm), h.ids⟩

theorem Noted.trans {s₁ : St} {ms ms' : List Nat} (h : Noted ms s s₁) (h' : Noted ms' s₁ s') :
    Noted (ms ++ ms') s s' where
  frame := h.frame.trans h'.frame
  mount f hf := by
    rw [h'.mount f (lt_of_lt_of_le hf h.frame.fresh), h.mount f hf]
  keep f hf hm := by
    rw [mem_append, not_or] at hm
    rw [h'.keep f (lt_of_lt_of_le hf h.frame.fresh) hm.2, h.keep f hf hm.1]
  ids := le_trans h.ids h'.ids

theorem Alloc.noted (h : Alloc s s') : Noted [] s s' :=
  ⟨h.frame, fun f hf => by rw [h.mount f hf], fun f hf _ => by rw [h.mount f hf], h.ids⟩

theorem Noted.cp {ms : List Nat} (h : Noted ms s s') {f : Nat} (hf : f < s.fresh) (hm : f ∉ ms) : s'.cp f = s.cp f := by
  rw [St.cp, h.keep f hf hm, St.cp]

theorem Noted.id {ms : List Nat} (h : Noted ms s s') {f : Nat} (hf : f < s.fresh) : s'.id f = s.id f := by
  rw [St.id, h.mount f hf, St.id]

theorem Noted.head {ms : List Nat} (h : Noted ms s s') {f : Nat} (hf : f < s.fresh) :
    (s'.mount f).head = (s.mount f).head := by
  rw [h.mount f hf]

theorem Noted.given {ms : List Nat} (h : Noted ms s s') {f : Nat} (hf : f < s.fresh) (hg : s.given f) : s'.given f :=
  hg.mono (h.id hf) h.ids

theorem Noted.lists {ms ys : List Nat} {mh : Nat} (h : Noted ms s s') (hok : Ok s own hs fs) (hg : Given s fs)
    (hys : ∀ f ∈ ys, s'.given f) : Given s' (update fs mh ys) := by
  intro m f hf
  by_cases hm : m = mh
  · rw [hm, update_self] at hf
    exact hys f hf
  · rw [update_of_ne hm] at hf
    exact h.given (hok.heads m f hf).2 (hg m f hf)

/-- Since `s` the mount `m` has been copied. -/
structure Copied (s s' : St) (m : Nat) : Prop where
  copy : (s'.mount m).copy = some (s'.cp m)
  fresh : s.fresh ≤ s'.cp m
  lt : s'.cp m < s'.fresh
  member : s'.member (s'.cp m) = s.member m
  given : s'.given (s'.cp m)

theorem Copied.later {s₁ : St} {ms : List Nat} {m : Nat} (h : Copied s s₁ m) (hn : Noted ms s₁ s') (hm : m < s₁.fresh)
    (hnot : m ∉ ms) : Copied s s' m := by
  have hcp := hn.cp hm hnot
  have hlt := lt_of_lt_of_le h.lt hn.frame.fresh
  constructor
  · rw [hn.keep m hm hnot, hcp]
    exact h.copy
  · rw [hcp]
    exact h.fresh
  · rw [hcp]
    exact hlt
  · rw [hcp, hn.frame.member _ h.lt]
    exact h.member
  · rw [hcp]
    exact hn.given h.lt h.given

theorem Copied.earlier {s₁ : St} {ms : List Nat} {m : Nat} (h : Copied s₁ s' m) (hn : Noted ms s s₁)
    (hm : m < s.fresh) :
    Copied s s' m :=
  ⟨h.copy, le_trans hn.frame.fresh h.fresh, h.lt, h.member.trans (hn.frame.member m hm), h.given⟩

/-- One turn of the loop over the mounts. -/
def copyMount (ns : List Newmount) (mh m : Nat) (link : MCell) (s : St) : St :=
  let s' := putmount mh (s.mount m).toc (s.mount m).mflag (s.mount m).spec { others ns s with room := s.room - 1 }
  { s' with
    mount := Function.update s'.mount m { s'.mount m with copy := some (others ns s).fresh }
    next := Function.update s'.next link (some (others ns s).fresh) }

variable (env) in
theorem copyMounts_succ (mh : Nat) {n m : Nat} (link : MCell) (order : List Nat) (hroom : s.room ≠ 0) :
    let s' := copyMount (env order.length) mh m link s
    copyMounts env mh (n + 1) (some m) link order s =
      copyMounts env mh n (s'.next (.next m)) (.next (others (env order.length) s).fresh)
        (pgrpinsert s'.id m order) s' := by
  intro s'
  have hid : s'.id = fun f => ((putmount mh (s.mount m).toc (s.mount m).mflag (s.mount m).spec
      { others (env order.length) s with room := s.room - 1 }).mount f).mountid := by
    funext f
    unfold St.id s' copyMount
    by_cases hf : f = m
    · subst hf
      simp
    · simp [update_of_ne hf]
  rw [copyMounts, newmount, room_others, if_neg hroom, hid]
  rfl

theorem copyMount_spec (ns : List Newmount) {mh m : Nat} (h : Ok s own hs fs) (hmh : mh < s.fresh) (hm : m < s.fresh) :
    let s' := copyMount ns mh m (endCell .next (.mount mh) (fs mh)) s
    let f := (others ns s).fresh
    Ok s' own hs (update fs mh (fs mh ++ [f])) ∧ Noted [m] s s' ∧ s'.cp m = f ∧ Copied s s' m ∧
      s'.hash = s.hash ∧
      s'.loc = s.loc ∧ s'.room = s.room - 1 ∧ ∀ g, (s.mount g).head ≠ mh → g < s.fresh → s'.next (.next g) = s.next
        (.next g) := by
  intro s' f
  have halloc₁ : Alloc s (others ns s) := Alloc.refl.others ns
  have hrm : Alloc s { others ns s with room := s.room - 1 } := { halloc₁ with }
  generalize hs₂ : putmount mh (s.mount m).toc (s.mount m).mflag
    (s.mount m).spec { others ns s with room := s.room - 1 } = s₂
  have halloc : Alloc s s₂ := by
    rw [← hs₂]
    exact hrm.putmount
  have hs' : s' = { s₂ with
      mount := update s₂.mount m { s₂.mount m with copy := some f }
      next := update s₂.next (endCell .next (.mount mh) (fs mh)) (some f) } := by
    rw [← hs₂]
    rfl
  have hnew : s₂.mount f = ⟨toUlong ((others ns s).mountid + 1), mh, none, (s.mount m).toc, (s.mount m).mflag,
    (s.mount m).spec⟩ := by
    rw [← hs₂]
    exact update_self _ _ _
  have hnil : s₂.next (.next f) = none := by
    rw [← hs₂]
    exact update_self _ _ _
  have hfresh : s₂.fresh = f + 1 := by rw [← hs₂]; rfl
  have hf : s.fresh ≤ f := halloc₁.fresh
  have hmf : m ≠ f := by omega
  have hok₂ := halloc.ok h
  have hnotin : f ∉ fs mh := fun hmem => by
    have := (h.heads mh f hmem).2
    omega
  have hend : ∀ g, (s₂.mount g).head ≠ mh → MCell.next g ≠ endCell .next (.mount mh) (fs mh) := by
    intro g hg heq
    rcases endCell_eq_or MCell.next (.mount mh) (fs mh) with ⟨hc, -⟩ | ⟨g', hg', hc⟩
    · rw [hc] at heq
      cases heq
    · rw [hc] at heq
      obtain rfl := next_injective heq
      exact hg (hok₂.heads mh g hg').1
  have hset := hok₂.setList (m := mh) (update s₂.next (endCell .next (.mount mh) (fs mh)) (some f))
    (fs mh ++ [f]) (by omega)
    ((hok₂.next mh).link [f] ⟨rfl, hnil⟩ next_injective (fun _ _ => mount_ne_next) (by
      intro g hg heq
      rw [mem_singleton.1 hg] at heq
      rcases endCell_eq_or MCell.next (.mount mh) (fs mh) with ⟨hc, -⟩ | ⟨g', hg', hc⟩
      · rw [hc] at heq
        cases heq
      · rw [hc] at heq
        exact hnotin (next_injective heq ▸ hg')))
    (by
      intro g hg
      rcases mem_append.1 hg with hg | hg
      · exact hok₂.heads mh g hg
      · rw [mem_singleton.1 hg, hnew]
        exact ⟨rfl, by omega⟩)
    (fun m' hm' => by
      refine update_of_ne ?_ _ _
      rcases endCell_eq_or MCell.next (.mount mh) (fs mh) with ⟨hc, -⟩ | ⟨g', -, hc⟩
      · rw [hc]
        simpa using hm'
      · rw [hc]
        exact mount_ne_next)
    (fun g hg => update_of_ne (hend g hg) _ _)
  have hmount : ∀ g, g ≠ m → s'.mount g = s₂.mount g := by
    intro g hg
    rw [hs']
    exact update_of_ne hg _ _
  have hmself : s'.mount m = { s₂.mount m with copy := some f } := by
    rw [hs']
    exact update_self _ _ _
  have hhead : ∀ g, (s'.mount g).head = (s₂.mount g).head := by
    intro g
    by_cases hg : g = m
    · rw [hg, hmself]
    · rw [hmount g hg]
  have hloc : s'.loc = s₂.loc := by rw [hs']; rfl
  have hmember : ∀ g, s'.member g = s₂.member g := by
    intro g
    by_cases hg : g = m
    · rw [hg, St.member, hmself, St.member]
    · rw [St.member, hmount g hg, St.member]
  have hcp : s'.cp m = f := by
    rw [St.cp, hmself]
    rfl
  have hid : s₂.mountid = (others ns s).mountid + 1 := by rw [← hs₂]; rfl
  have hid' : s'.mountid = s₂.mountid := by rw [hs']
  refine ⟨?_, ⟨?_, fun g hg => ?_, fun g hg hgm => ?_, ?_⟩, hcp, ⟨?_, ?_, ?_, ?_, ?_⟩, ?_, ?_, ?_, fun g hg hlt => ?_⟩
  · exact hset.congr (by rw [hs']) (by rw [hs']) hloc hhead (by rw [hs'])
  · refine halloc.frame.trans (frame_of_eq ?_ hloc hmember ?_ ?_) <;> rw [hs']
  · rw [← halloc.mount g hg]
    by_cases hgm : g = m
    · rw [hgm, hmself]
    · rw [hmount g hgm]
  · rw [hmount g (by simpa using hgm), halloc.mount g hg]
  · rw [hid']
    exact halloc.ids
  · rw [hcp, hmself]
  · rw [hcp]
    exact hf
  · rw [hcp, hs']
    show f < s₂.fresh
    omega
  · rw [hcp, hmember, St.member, hnew, St.member]
  · rw [hcp]
    exact ⟨(others ns s).mountid + 1, by omega, by omega, by rw [St.id, hmount f (Ne.symm hmf), hnew]⟩
  · rw [hs']
    exact halloc.hash
  · exact hloc.trans (loc_eq_of_head halloc.head)
  · rw [hs', ← hs₂]
    rfl
  · rw [hs', ← halloc.next g hlt]
    exact update_of_ne (hend g (by rwa [halloc.mount g hlt])) _ _

theorem pgrpinsert_congr {id id' : Nat → Nat} {m : Nat} {order : List Nat} (hm : id m = id' m)
    (h : ∀ f ∈ order, id f = id' f) : pgrpinsert id m order = pgrpinsert id' m order := by
  induction order with
  | nil => rfl
  | cons f fs ih =>
    rw [pgrpinsert, pgrpinsert, hm, h f (by simp), ih fun g hg => h g (by simp [hg])]

theorem pgrpinsert_perm {id : Nat → Nat} {m : Nat} {order : List Nat} : (pgrpinsert id m order).Perm (m :: order) := by
  induction order with
  | nil => exact .refl _
  | cons f fs ih =>
    rw [pgrpinsert]
    split
    · exact .refl _
    · exact (ih.cons f).trans (.swap m f fs)

/-- `pgrpinsert` of one mount after the other -/
def insertAll (id : Nat → Nat) (ms order : List Nat) : List Nat := ms.foldl (fun order m => pgrpinsert id m order) order

theorem insertAll_perm (id : Nat → Nat) (ms order : List Nat) : (insertAll id ms order).Perm (order ++ ms) := by
  induction ms generalizing order with
  | nil => simp [insertAll]
  | cons m ms ih =>
    refine (ih (pgrpinsert id m order)).trans ?_
    refine (pgrpinsert_perm.append_right ms).trans ?_
    exact perm_middle.symm

theorem insertAll_append {id : Nat → Nat} {ms ms' order : List Nat} :
    insertAll id (ms ++ ms') order = insertAll id ms' (insertAll id ms order) :=
  foldl_append

theorem insertAll_congr {id id' : Nat → Nat} {ms order : List Nat} (hms : ∀ m ∈ ms, id m = id' m)
    (h : ∀ f ∈ order, id f = id' f) : insertAll id ms order = insertAll id' ms order := by
  induction ms generalizing order with
  | nil => rfl
  | cons m ms ih =>
    have hm := hms m (by simp)
    show insertAll id ms (pgrpinsert id m order) = insertAll id' ms (pgrpinsert id' m order)
    rw [← pgrpinsert_congr hm h]
    refine ih (fun f hf => hms f (by simp [hf])) fun f hf => ?_
    rcases mem_cons.1 (pgrpinsert_perm.mem_iff.1 hf) with rfl | hf
    · exact hm
    · exact h f hf

variable (env) in
theorem copyMounts_spec (mh : Nat) {n : Nat} {v : Option Nat} (link : MCell) (order : List Nat) {ms : List Nat}
    (h : Ok s own hs fs)
    (hmh : mh < s.fresh) (hlink : link = endCell .next (.mount mh) (fs mh)) (hv : From s.next .next v ms)
    (hms : ∀ m ∈ ms, m < s.fresh ∧ (s.mount m).head ≠ mh) (hnd : ms.Nodup) (hn : ms.length ≤ n)
    (hord : ∀ f ∈ order, f < s.fresh) :
    let r := copyMounts env mh n v link order s
    let s' := r.2.2
    Ok s' own hs (update fs mh (fs mh ++ (ms.take s.room).map s'.cp)) ∧ Noted ms s s' ∧
      r.1 = decide (ms.length ≤ s.room) ∧
      (∀ m ∈ ms.take s.room, Copied s s' m) ∧
      s'.hash = s.hash ∧ s'.loc = s.loc ∧ s'.room = s.room - ms.length ∧
      (r.1 = true → r.2.1 = insertAll s.id ms order) := by
  induction ms generalizing s n v link order fs with
  | nil =>
    have hv : v = none := hv
    subst hv
    have hr : copyMounts env mh n none link order s = (true, order, s) := by cases n <;> rfl
    rw [hr]
    simp only [take_nil, map_nil, append_nil, update_eq_self, length_nil, zero_le,
      decide_true, not_mem_nil, false_implies, implies_true, true_and, Nat.sub_zero]
    exact ⟨h, .refl, fun _ => rfl⟩
  | cons m ms ih =>
    obtain ⟨rfl, hv⟩ := hv
    obtain ⟨hmnot, hnd⟩ := nodup_cons.1 hnd
    obtain ⟨hm, hmhead⟩ := hms m (by simp)
    cases n with
    | zero => simp at hn
    | succ n =>
      by_cases hroom : s.room = 0
      · have hr : copyMounts env mh (n + 1) (some m) link order s = (false, order, others (env order.length) s) := by
          rw [copyMounts, newmount, room_others, if_pos hroom]
        have halloc : Alloc s (others (env order.length) s) := Alloc.refl.others _
        rw [hr]
        simp only [hroom, take_zero, map_nil, append_nil, update_eq_self, not_mem_nil,
          false_implies, implies_true, true_and, Nat.zero_sub, room_others]
        exact ⟨halloc.ok h, halloc.noted.mono (by simp), by simp, halloc.hash, loc_eq_of_head halloc.head,
          fun hr => absurd hr Bool.false_ne_true⟩
      obtain ⟨hok₁, hnoted₁, hcp₁, hcopied, hhash₁, hloc₁, hroom₁, hnext₁⟩ :=
        copyMount_spec (env order.length) h hmh hm
      have hstep := copyMounts_succ (n := n) (m := m) env mh link order hroom
      rw [hlink] at hstep ⊢
      generalize copyMount (env order.length) mh m (endCell .next (.mount mh) (fs mh)) s = s₁ at *
      generalize (others (env order.length) s).fresh = f at *
      have hle₁ : s.fresh ≤ s₁.fresh := hnoted₁.frame.fresh
      have hold : ∀ g ∈ m :: ms, s₁.next (.next g) = s.next (.next g) := fun g hg =>
        hnext₁ g (hms g hg).2 (hms g hg).1
      have hv₁ : From s₁.next .next (s₁.next (.next m)) ms := by
        rw [hold m (by simp)]
        exact hv.congr fun g hg => hold g (by simp [hg])
      have hord₁ : ∀ g ∈ pgrpinsert s₁.id m order, g < s₁.fresh := by
        intro g hg
        refine lt_of_lt_of_le ?_ hnoted₁.frame.fresh
        rcases mem_cons.1 (pgrpinsert_perm.mem_iff.1 hg) with rfl | hg
        · exact hm
        · exact hord g hg
      obtain ⟨hok, hnoted, hr, hcopies, hhash, hloc, hroom', horder⟩ := ih (n := n) (v := s₁.next (.next m))
        (.next f) (pgrpinsert s₁.id m order) hok₁ (by omega)
        (by rw [update_self, endCell_concat]) hv₁
        (fun g hg => ⟨by have := (hms g (by simp [hg])).1; omega, by
          rw [hnoted₁.head (hms g (by simp [hg])).1]
          exact (hms g (by simp [hg])).2⟩) hnd (by simpa using hn) hord₁
      dsimp only at hstep
      rw [hstep]
      change Ok (copyMounts env mh n (s₁.next (.next m)) (.next f) (pgrpinsert s₁.id m order) s₁).2.2 _ _ _ ∧ _
      generalize copyMounts env mh n (s₁.next (.next m)) (.next f) (pgrpinsert s₁.id m order) s₁ = r at *
      have hm₁ : m < s₁.fresh := lt_of_lt_of_le hm hnoted₁.frame.fresh
      have hcp : r.2.2.cp m = f := (hnoted.cp hm₁ hmnot).trans hcp₁
      have htake : (m :: ms).take s.room = m :: ms.take s₁.room := by
        obtain ⟨k, hk⟩ := Nat.exists_eq_succ_of_ne_zero hroom
        rw [hroom₁, hk]
        rfl
      refine ⟨?_, ?_, ?_, ?_, hhash.trans hhash₁, hloc.trans hloc₁, ?_, fun htrue => ?_⟩
      · rw [update_self, update_idem, append_assoc, singleton_append] at hok
        rw [htake, map_cons, hcp]
        exact hok
      · exact hnoted₁.trans hnoted
      · rw [hr, length_cons, hroom₁, decide_eq_decide]
        omega
      · rw [htake]
        intro g hg
        rcases mem_cons.1 hg with rfl | hg
        · exact hcopied.later hnoted hm₁ hmnot
        · exact (hcopies g hg).earlier hnoted₁ (hms g (mem_cons_of_mem _ (mem_of_mem_take hg))).1
      · rw [hroom', hroom₁, length_cons]
        omega
      · rw [horder htrue]
        show insertAll s₁.id (m :: ms) order = _
        exact insertAll_congr (fun g hg => hnoted₁.id (hms g hg).1) fun g hg => hnoted₁.id (hord g hg)

/-- One turn of the loop over a hash chain, before the mounts. -/
def copyHead (q : Nat) (l : HCell) (s : St) : St :=
  let s' := newmhead (s.head q).frm { s with room := s.room - 1 }
  { s' with hash := Function.update s'.hash l (some s.fresh) }

variable (env) in
theorem copyHeads_succ {n q : Nat} {l : HCell} (order : List Nat) (hroom : s.room ≠ 0) :
    let s' := copyHead q l s
    copyHeads env (n + 1) (some q) l order s =
      match copyMounts env s.fresh s'.fuel (s'.next (.mount q)) (.mount s.fresh) order s' with
      | (false, order, s) => (false, order, s)
      | (true, order, s'') => copyHeads env n (s''.hash (.hash q)) (.hash s.fresh) order s'' := by
  intro s'
  rw [copyHeads, if_neg hroom]
  rfl

theorem copyHead_spec (pg : Nat) {q : Nat} (h : Ok s own hs fs) (hq : s.loc q ∉ (hs pg (MOUNTH (s.loc q))).map s.loc) :
    let s' := copyHead q (endCell .hash (.bucket pg (MOUNTH (s.loc q))) (hs pg (MOUNTH (s.loc q)))) s
    Ok s' (update own s.fresh pg) (addHead hs pg (s.loc q) s.fresh) fs ∧ Noted [] s s' ∧
      s'.fresh = s.fresh + 1 ∧ s'.loc s.fresh = s.loc q ∧ s'.room = s.room - 1 ∧ s'.mount = s.mount ∧
      ∀ q', own q' ≠ pg → q' < s.fresh → s'.hash (.hash q') = s.hash (.hash q') := by
  intro s'
  have hrm : Ok { s with room := s.room - 1 } own hs fs := h.congr rfl rfl rfl (fun _ => rfl) rfl
  have hloc : s'.loc s.fresh = s.loc q := by
    show ((update s.head s.fresh ⟨1, (s.head q).frm⟩) s.fresh).frm.loc = s.loc q
    rw [update_self, St.loc]
  refine ⟨hrm.addHead hq, ⟨⟨Nat.le_succ _, fun m hm => ?_, fun _ _ => rfl, rfl, rfl⟩, fun _ _ => rfl, fun _ _ _ => rfl,
    le_refl _⟩, rfl, hloc, rfl, rfl, fun q' hown hlt => ?_⟩
  · show ((update s.head s.fresh ⟨1, (s.head q).frm⟩) m).frm.loc = s.loc m
    rw [update_of_ne (ne_of_lt hm), St.loc]
  have hne : HCell.hash q' ≠ endCell .hash (.bucket pg (MOUNTH (s.loc q))) (hs pg (MOUNTH (s.loc q))) := by
    intro heq
    rcases endCell_eq_or HCell.hash (.bucket pg (MOUNTH (s.loc q))) (hs pg (MOUNTH (s.loc q)))
      with ⟨hc, -⟩ | ⟨p, hp, hc⟩
    · rw [hc] at heq
      cases heq
    · rw [hc] at heq
      exact hown (hash_injective heq ▸ (h.bucket _ _ p hp).1)
  have hnf : HCell.hash q' ≠ .hash s.fresh := fun heq => ne_of_lt hlt (hash_injective heq)
  show update (update s.hash (.hash s.fresh) none) _ _ (.hash q') = _
  rw [update_of_ne hne, update_of_ne hnf]

variable (env) in
theorem copyHeads_spec {topg frmpg i n : Nat} {v : Option Nat} {l : HCell} (order : List Nat) {qs : List Nat}
    (h : Ok s own hs fs)
    (hpg : frmpg ≠ topg) (hl : l = endCell .hash (.bucket topg i) (hs topg i)) (hv : From s.hash .hash v qs)
    (hqs : ∀ q ∈ qs, own q = frmpg ∧ MOUNTH (s.loc q) = i ∧ q < s.fresh)
    (hnd : ((hs topg i).map s.loc ++ qs.map s.loc).Nodup) (hn : qs.length ≤ n) (hord : ∀ f ∈ order, f < s.fresh) :
    let r := copyHeads env n v l order s
    let s' := r.2.2
    let c := copyRows s.room (qs.map (s.row fs))
    ∃ own' ps fs', Ok s' own' (update hs topg (update (hs topg) i (hs topg i ++ ps))) fs' ∧
      Noted (qs.flatMap fs) s s' ∧ (∀ m < s.fresh, fs' m = fs m ∧ own' m = own m) ∧
      ps.map (s'.row fs') = c.2.1.map (Row.map s'.cp) ∧ r.1 = c.1 ∧ s'.room = c.2.2 ∧
      (∀ m ∈ c.2.1.flatMap Prod.snd, Copied s s' m) ∧
      (r.1 = true → r.2.1 = insertAll s.id (qs.flatMap fs) order) ∧ (Given s fs → Given s' fs') := by
  induction qs generalizing s own hs fs n v l order with
  | nil =>
    have hv : v = none := hv
    subst hv
    have hr : copyHeads env n none l order s = (true, order, s) := by cases n <;> rfl
    rw [hr]
    refine ⟨own, [], fs, ?_, .refl, fun _ _ => ⟨rfl, rfl⟩, rfl, rfl, rfl, nofun, fun _ => rfl, id⟩
    rw [append_nil, update_eq_self, update_eq_self]
    exact h
  | cons q qs ih =>
    obtain ⟨rfl, hv⟩ := hv
    obtain ⟨hown, rfl, hq⟩ := hqs q (by simp)
    cases n with
    | zero => simp at hn
    | succ n =>
      by_cases hroom : s.room = 0
      · have hr : copyHeads env (n + 1) (some q) l order s = (false, order, s) := by rw [copyHeads, if_pos hroom]
        have hc : copyRows s.room ((q :: qs).map (s.row fs)) = (false, [], 0) := by
          rw [map_cons, St.row, copyRows, if_pos hroom]
        rw [hr, hc]
        refine ⟨own, [], fs, ?_, .refl, fun _ _ => ⟨rfl, rfl⟩, rfl, rfl, hroom, nofun, nofun, id⟩
        rw [append_nil, update_eq_self, update_eq_self]
        exact h
      have hnew : s.loc q ∉ (hs topg (MOUNTH (s.loc q))).map s.loc := fun hmem =>
        (nodup_append.1 hnd).2.2 _ hmem (s.loc q) (by simp) rfl
      obtain ⟨hok₁, hnoted₁, hfresh₁, hlocmh, hroom₁, hmount₁, hhash₁⟩ := copyHead_spec topg h hnew
      have hstep := copyHeads_succ (n := n) (q := q) (l := l) env order hroom
      rw [← hl] at hok₁ hnoted₁ hfresh₁ hlocmh hroom₁ hmount₁ hhash₁
      generalize copyHead q l s = s₁ at *
      have hnil : fs s.fresh = [] := h.new _ (le_refl _)
      have hfsq : ∀ q' ∈ q :: qs, ∀ f ∈ fs q', (s.mount f).head = q' ∧ f < s.fresh := fun q' _ => h.heads q'
      obtain ⟨hok₂, hnoted₂, hr₂, hcopies₂, hhash₂, hloc₂, hroom₂, horder₂⟩ :=
        copyMounts_spec (n := s₁.fuel) env s.fresh (.mount s.fresh) order hok₁ (by omega) (by rw [hnil]; rfl)
        (chain_iff_from.1 (hok₁.next q)) (fun m hm => by
          obtain ⟨hhead, hlt⟩ := h.heads q m hm
          rw [hmount₁, hhead]
          exact ⟨by omega, ne_of_lt hq⟩)
        (hok₁.next q).nodup (Nat.le_succ_of_le hok₁.length_fs_le) fun f hf => by have := hord f hf; omega
      dsimp only at hstep
      rw [hstep]
      rw [hnil, nil_append] at hok₂
      generalize copyMounts env s.fresh s₁.fuel (s₁.next (.mount q)) (.mount s.fresh) order s₁ = r₂ at *
      obtain ⟨b, order₂, s₂⟩ := r₂
      dsimp only at hok₂ hnoted₂ hr₂ hcopies₂ hhash₂ hloc₂ hroom₂ horder₂
      rw [hroom₁] at hr₂ hcopies₂ hroom₂ hok₂
      have hlocq : s₂.loc s.fresh = s.loc q := by rw [hloc₂, hlocmh]
      have hcopies : ∀ m ∈ (fs q).take (s.room - 1), Copied s s₂ m := fun m hm =>
        (hcopies₂ m hm).earlier hnoted₁ (h.heads q m (mem_of_mem_take hm)).2
      have hnoted : Noted (fs q) s s₂ := hnoted₁.trans hnoted₂
      have hgiven₂ : Given s fs → Given s₂ (update fs s.fresh (((fs q).take (s.room - 1)).map s₂.cp)) :=
        fun hg => hnoted.lists h hg fun f hf => by
          obtain ⟨m, hm, rfl⟩ := mem_map.1 hf
          exact (hcopies m hm).given
      have hkeep : ∀ m < s.fresh, update fs s.fresh (((fs q).take (s.room - 1)).map s₂.cp) m = fs m ∧
          update own s.fresh topg m = own m := fun m hm =>
        ⟨update_of_ne (ne_of_lt hm) _ _, update_of_ne (ne_of_lt hm) _ _⟩
      cases b with
      | false =>
        have hlen : ¬ (fs q).length ≤ s.room - 1 := fun hle => by simp [hle] at hr₂
        have hc : copyRows s.room ((q :: qs).map (s.row fs)) = (false, [(s.loc q, (fs q).take (s.room - 1))], 0) := by
          rw [map_cons, St.row, copyRows, if_neg hroom, if_neg hlen]
        rw [hc]
        refine ⟨_, [s.fresh], _, hok₂, hnoted.mono fun m hm => ?_, hkeep, ?_, rfl, ?_, ?_, nofun, hgiven₂⟩
        · exact mem_flatMap.2 ⟨q, by simp, hm⟩
        · simp only [map_cons, map_nil, St.row, Row.map, hlocq, update_self]
        · show s₂.room = 0
          omega
        · simpa using hcopies
      | true =>
        have hlen : (fs q).length ≤ s.room - 1 := of_decide_eq_true hr₂.symm
        have hall : (fs q).take (s.room - 1) = fs q := take_of_length_le hlen
        rw [hall] at hok₂ hcopies hkeep hgiven₂
        have hlt₂ : s.fresh < s₂.fresh := by
          have := hnoted₂.frame.fresh
          omega
        have hbk : addHead hs topg (s.loc q) s.fresh topg (MOUNTH (s.loc q)) =
            hs topg (MOUNTH (s.loc q)) ++ [s.fresh] := by
          unfold addHead
          rw [update_self, update_self]
        have hcell : ∀ q' ∈ q :: qs, s₂.hash (.hash q') = s.hash (.hash q') := by
          intro q' hq'
          obtain ⟨howq, -, hltq⟩ := hqs q' hq'
          rw [hhash₂]
          exact hhash₁ q' (by rw [howq]; exact hpg) hltq
        have hv₂ : From s₂.hash .hash (s₂.hash (.hash q)) qs := by
          rw [hcell q (by simp)]
          exact hv.congr fun q' hq' => hcell q' (by simp [hq'])
        have hloc : ∀ m < s.fresh, s₂.loc m = s.loc m := hnoted.frame.loc
        have hlocs : (addHead hs topg (s.loc q) s.fresh topg (MOUNTH (s.loc q))).map s₂.loc ++ qs.map s₂.loc =
            (hs topg (MOUNTH (s.loc q))).map s.loc ++ (q :: qs).map s.loc := by
          rw [hbk, map_append, map_singleton, hlocq, append_assoc, singleton_append,
            map_cons]
          congr 1
          · exact map_congr_left fun m hm => hloc m (h.bucket _ _ m hm).2.2
          · exact congrArg _ (map_congr_left fun m hm => hloc m (hqs m (by simp [hm])).2.2)
        have hord₂ : ∀ f ∈ order₂, f < s₂.fresh := by
          intro f hf
          rw [horder₂ rfl] at hf
          rcases mem_append.1 ((insertAll_perm _ _ _).mem_iff.1 hf) with hf | hf
          · exact lt_trans (hord f hf) hlt₂
          · exact lt_trans (h.heads q f hf).2 hlt₂
        obtain ⟨own', ps, fs', hok, hnoted', hkeep', hrows, hr, hroom', hcopies', horder, hgiven'⟩ := ih (n := n)
          (v := s₂.hash (.hash q)) (l := .hash s.fresh) order₂ hok₂ (by rw [hbk, endCell_concat]) hv₂
          (fun q' hq' => by
            obtain ⟨howq, hi, hltq⟩ := hqs q' (by simp [hq'])
            rw [(hkeep q' hltq).2, hloc q' hltq]
            exact ⟨howq, hi, lt_trans hltq hlt₂⟩)
          (by rw [hlocs]; exact hnd) (by simpa using hn) hord₂
        dsimp only
        generalize copyHeads env n (s₂.hash (.hash q)) (.hash s.fresh) order₂ s₂ = r at *
        have hlists : ∀ q' ∈ qs, update fs s.fresh ((fs q).map s₂.cp) q' = fs q' := fun q' hq' =>
          (hkeep q' (hqs q' (by simp [hq'])).2.2).1
        have hmap : qs.map (s₂.row (update fs s.fresh ((fs q).map s₂.cp))) = qs.map (s.row fs) :=
          map_congr_left fun q' hq' => by
            rw [St.row, hlists q' hq', hloc q' (hqs q' (by simp [hq'])).2.2, St.row]
        have hflat : qs.flatMap (update fs s.fresh ((fs q).map s₂.cp)) = qs.flatMap fs := by
          rw [flatMap_def, flatMap_def, map_congr_left hlists]
        rw [hmap] at hrows hr hroom' hcopies'
        rw [hflat] at hnoted' horder
        have hc : copyRows s.room ((q :: qs).map (s.row fs)) =
            ((copyRows s₂.room (qs.map (s.row fs))).1, (s.loc q, fs q) :: (copyRows s₂.room (qs.map (s.row fs))).2.1,
              (copyRows s₂.room (qs.map (s.row fs))).2.2) := by
          rw [map_cons, St.row, copyRows, if_neg hroom, if_pos hlen, hroom₂]
        have hqnot : q ∉ qs := by
          have := (nodup_append.1 hnd).2.1
          rw [map_cons, nodup_cons] at this
          exact fun hmem => this.1 (mem_map_of_mem hmem)
        have hnotin : ∀ m ∈ fs q, m < s₂.fresh ∧ m ∉ qs.flatMap fs := by
          intro m hm
          obtain ⟨hhead, hlt⟩ := h.heads q m hm
          refine ⟨lt_trans hlt hlt₂, fun hmem => ?_⟩
          obtain ⟨q', hq', hm'⟩ := mem_flatMap.1 hmem
          rw [(h.heads q' m hm').1] at hhead
          exact hqnot (hhead ▸ hq')
        have hcp : ∀ m ∈ fs q, r.2.2.cp m = s₂.cp m := fun m hm => hnoted'.cp (hnotin m hm).1 (hnotin m hm).2
        rw [hc]
        dsimp only
        refine ⟨own', s.fresh :: ps, fs', ?_, ?_, fun m hm => ?_, ?_, hr, hroom', fun m hm => ?_, fun htrue => ?_,
          fun hg => hgiven' (hgiven₂ hg)⟩
        · rw [hbk] at hok
          unfold addHead at hok
          rw [update_idem, update_self, update_idem, append_assoc,
            singleton_append] at hok
          exact hok
        · exact hnoted.trans hnoted'
        · obtain ⟨h₁, h₂⟩ := hkeep m hm
          obtain ⟨h₁', h₂'⟩ := hkeep' m (lt_trans hm hlt₂)
          exact ⟨h₁'.trans h₁, h₂'.trans h₂⟩
        · rw [map_cons, map_cons, hrows]
          refine congrArg (· :: _) ?_
          rw [St.row, Row.map, hnoted'.frame.loc _ hlt₂, hlocq, (hkeep' _ hlt₂).1, update_self,
            map_congr_left hcp]
        · rw [flatMap_cons, mem_append] at hm
          rcases hm with hm | hm
          · exact (hcopies m hm).later hnoted' (hnotin m hm).1 (hnotin m hm).2
          · obtain ⟨q', hq', hm'⟩ : ∃ q' ∈ qs, m ∈ fs q' := by
              obtain ⟨row, hrow, hm'⟩ := mem_flatMap.1 (copyRows_subset hm)
              obtain ⟨q', hq', rfl⟩ := mem_map.1 hrow
              exact ⟨q', hq', hm'⟩
            exact (hcopies' m hm).earlier hnoted (h.heads q' m hm').2
        · rw [horder htrue, horder₂ rfl, flatMap_cons]
          rw [insertAll_append]
          have hin : insertAll s₁.id (fs q) order = insertAll s.id (fs q) order :=
            insertAll_congr (fun m hm => hnoted₁.id (h.heads q m hm).2) fun m hm => hnoted₁.id (hord m hm)
          rw [hin]
          refine insertAll_congr (fun m hm => ?_) fun m hm => ?_
          · obtain ⟨q', -, hm'⟩ := mem_flatMap.1 hm
            exact hnoted.id (h.heads q' m hm').2
          · rcases mem_append.1 ((insertAll_perm _ _ _).mem_iff.1 hm) with hm | hm
            · exact hnoted.id (hord m hm)
            · exact hnoted.id (h.heads q m hm).2

variable (env) in
theorem copyBuckets_spec {topg frmpg : Nat} (is order : List Nat) (h : Ok s own hs fs) (hpg : frmpg ≠ topg)
    (hnil : ∀ i ∈ is, hs topg i = []) (hnd : is.Nodup) (hord : ∀ f ∈ order, f < s.fresh) :
    let r := copyBuckets env topg frmpg is order s
    let s' := r.2.2
    let qs := is.flatMap (hs frmpg)
    let c := copyRows s.room (qs.map (s.row fs))
    ∃ own' hs' fs', Ok s' own' hs' fs' ∧ Noted (qs.flatMap fs) s s' ∧ (∀ m < s.fresh, fs' m = fs m ∧ own' m = own m) ∧
      (∀ pg, pg ≠ topg → hs' pg = hs pg) ∧ (∀ i, i ∉ is → hs' topg i = hs topg i) ∧
      (is.flatMap (hs' topg)).map (s'.row fs') = c.2.1.map (Row.map s'.cp) ∧ r.1 = c.1 ∧
      (∀ m ∈ c.2.1.flatMap Prod.snd, Copied s s' m) ∧
      (r.1 = true → r.2.1 = insertAll s.id (qs.flatMap fs) order) ∧ (Given s fs → Given s' fs') := by
  induction is generalizing s own hs fs order with
  | nil =>
    refine ⟨own, hs, fs, h, .refl, fun _ _ => ⟨rfl, rfl⟩, fun _ _ => rfl, fun _ _ => rfl, rfl, rfl, nofun,
      fun _ => rfl, id⟩
  | cons i is ih =>
    obtain ⟨hi, hnd⟩ := nodup_cons.1 hnd
    have hnil₀ := hnil i (by simp)
    obtain ⟨own₁, ps, fs₁, hok₁, hnoted₁, hkeep₁, hrows₁, hr₁, hroom₁, hcopies₁, horder₁, hgiven₁⟩ :=
      copyHeads_spec (n := s.fuel) (l := .bucket topg i) env order h hpg (by rw [hnil₀]; rfl)
      (chain_iff_from.1 (h.hash frmpg i)) (fun q hq => h.bucket frmpg i q hq) (by
        rw [hnil₀, map_nil, nil_append]
        exact h.inj frmpg i) (Nat.le_succ_of_le h.length_hs_le) hord
    rw [hnil₀, nil_append] at hok₁
    have hstep : copyBuckets env topg frmpg (i :: is) order s =
        match copyHeads env s.fuel (s.hash (.bucket frmpg i)) (.bucket topg i) order s with
        | (false, order, s) => (false, order, s)
        | (true, order, s) => copyBuckets env topg frmpg is order s := rfl
    rw [hstep]
    generalize copyHeads env s.fuel (s.hash (.bucket frmpg i)) (.bucket topg i) order s = r₁ at *
    obtain ⟨b, order₁, s₁⟩ := r₁
    dsimp only at hok₁ hnoted₁ hkeep₁ hrows₁ hr₁ hroom₁ hcopies₁ horder₁ hgiven₁
    generalize hc₁ : copyRows s.room ((hs frmpg i).map (s.row fs)) = c₁ at *
    generalize hhs₁ : update hs topg (update (hs topg) i ps) = hs₁ at hok₁
    have hfrm₁ : ∀ pg, pg ≠ topg → hs₁ pg = hs pg := fun pg hne => by
      rw [← hhs₁, update_of_ne hne]
    have hto₁ : ∀ j, j ≠ i → hs₁ topg j = hs topg j := fun j hj => by
      rw [← hhs₁, update_self, update_of_ne hj]
    have hself : hs₁ topg i = ps := by rw [← hhs₁, update_self, update_self]
    cases b with
    | false =>
      have hflat : (i :: is).flatMap (hs₁ topg) = ps := by
        have hrest : is.flatMap (hs₁ topg) = [] := by
          rw [flatMap_eq_nil_iff]
          intro j hj
          rw [hto₁ j fun heq => hi (heq ▸ hj), hnil j (by simp [hj])]
        rw [flatMap_cons, hrest, hself, append_nil]
      have hc : copyRows s.room (((i :: is).flatMap (hs frmpg)).map (s.row fs)) = c₁ := by
        rw [flatMap_cons, map_append, copyRows_append, hc₁]
        dsimp only
        rw [← hr₁]
        rfl
      dsimp only
      rw [hc]
      refine ⟨own₁, hs₁, fs₁, hok₁, hnoted₁.mono fun m hm => ?_, hkeep₁, hfrm₁, fun j hj => ?_, ?_, hr₁, hcopies₁,
        nofun,
        hgiven₁⟩
      · rw [flatMap_cons, flatMap_append]
        exact mem_append_left _ hm
      · exact hto₁ j fun heq => hj (by simp [heq])
      · rw [hflat]
        exact hrows₁
    | true =>
      have hframe₁ := hnoted₁.frame
      have hlt₁ : ∀ m, m < s.fresh → m < s₁.fresh := fun m hm => lt_of_lt_of_le hm hframe₁.fresh
      have hord₁ : ∀ f ∈ order₁, f < s₁.fresh := by
        intro f hf
        rw [horder₁ rfl] at hf
        rcases mem_append.1 ((insertAll_perm _ _ _).mem_iff.1 hf) with hf | hf
        · exact hlt₁ f (hord f hf)
        · obtain ⟨q, -, hf⟩ := mem_flatMap.1 hf
          exact hlt₁ f (h.heads q f hf).2
      obtain ⟨own', hs', fs', hok, hnoted, hkeep, hfrm, hto, hrows, hr, hcopies, horder, hgiven⟩ :=
        ih _ hok₁ (fun j hj => by
        rw [hto₁ j fun heq => hi (heq ▸ hj), hnil j (by simp [hj])]) hnd hord₁
      dsimp only
      generalize copyBuckets env topg frmpg is order₁ s₁ = r at *
      rw [hfrm₁ frmpg hpg] at hnoted hrows hr hcopies horder
      -- the rest of the rows are as they were
      have hlists : ∀ q ∈ is.flatMap (hs frmpg), fs₁ q = fs q ∧ s₁.loc q = s.loc q ∧ q < s.fresh := by
        intro q hq
        obtain ⟨j, -, hq⟩ := mem_flatMap.1 hq
        have hlt := (h.bucket frmpg j q hq).2.2
        exact ⟨(hkeep₁ q hlt).1, hframe₁.loc q hlt, hlt⟩
      have hmap : (is.flatMap (hs frmpg)).map (s₁.row fs₁) = (is.flatMap (hs frmpg)).map (s.row fs) :=
        map_congr_left fun q hq => by rw [St.row, (hlists q hq).1, (hlists q hq).2.1, St.row]
      have hflat : (is.flatMap (hs frmpg)).flatMap fs₁ = (is.flatMap (hs frmpg)).flatMap fs := by
        rw [flatMap_def, flatMap_def (f := fs), map_congr_left fun q hq => (hlists q hq).1]
      rw [hmap] at hrows hr hcopies
      rw [hflat] at hnoted horder
      have hc : copyRows s.room (((i :: is).flatMap (hs frmpg)).map (s.row fs)) =
          ((copyRows s₁.room ((is.flatMap (hs frmpg)).map (s.row fs))).1,
            c₁.2.1 ++ (copyRows s₁.room ((is.flatMap (hs frmpg)).map (s.row fs))).2.1,
            (copyRows s₁.room ((is.flatMap (hs frmpg)).map (s.row fs))).2.2) := by
        rw [flatMap_cons, map_append, copyRows_append, hc₁]
        dsimp only
        rw [← hr₁, hroom₁]
        rfl
      have hin : ∀ m ∈ c₁.2.1.flatMap Prod.snd, m < s.fresh ∧ m ∉ (is.flatMap (hs frmpg)).flatMap fs := by
        intro m hm
        rw [← hc₁] at hm
        obtain ⟨row, hrow, hm⟩ := mem_flatMap.1 (copyRows_subset hm)
        obtain ⟨q, hq, rfl⟩ := mem_map.1 hrow
        obtain ⟨hhead, hlt⟩ := h.heads q m hm
        refine ⟨hlt, fun hmem => ?_⟩
        obtain ⟨q', hq', hm'⟩ := mem_flatMap.1 hmem
        obtain ⟨j, hj, hq'⟩ := mem_flatMap.1 hq'
        obtain rfl : q' = q := by rw [← (h.heads q' m hm').1, hhead]
        obtain rfl : i = j := by rw [← (h.bucket _ _ _ hq).2.1, (h.bucket _ _ _ hq').2.1]
        exact hi hj
      have hcp : ∀ m ∈ c₁.2.1.flatMap Prod.snd, r.2.2.cp m = s₁.cp m := fun m hm =>
        hnoted.cp (hlt₁ m (hin m hm).1) (hin m hm).2
      have hbk : hs' topg i = ps := (hto i hi).trans hself
      have hps : ∀ p ∈ ps, p < s₁.fresh := fun p hp => (hok₁.bucket topg i p (hself.symm ▸ hp)).2.2
      rw [hc]
      dsimp only
      refine ⟨own', hs', fs', hok, ?_, fun m hm => ?_, fun pg hne => ?_, fun j hj => ?_, ?_, hr, fun m hm => ?_,
        fun htrue => ?_,
        fun hg => hgiven (hgiven₁ hg)⟩
      · rw [flatMap_cons, flatMap_append]
        exact hnoted₁.trans hnoted
      · obtain ⟨h₁, h₂⟩ := hkeep m (hlt₁ m hm)
        exact ⟨h₁.trans (hkeep₁ m hm).1, h₂.trans (hkeep₁ m hm).2⟩
      · rw [hfrm pg hne, hfrm₁ pg hne]
      · rw [mem_cons, not_or] at hj
        rw [hto j hj.2, hto₁ j hj.1]
      · rw [flatMap_cons, map_append, map_append, hrows, hbk]
        refine congrArg (· ++ _) ?_
        have hprow : ps.map (r.2.2.row fs') = ps.map (s₁.row fs₁) := map_congr_left fun p hp => by
          rw [St.row, (hkeep p (hps p hp)).1, hnoted.frame.loc p (hps p hp), St.row]
        rw [hprow, hrows₁]
        refine map_congr_left fun row hrow => ?_
        rw [Row.map, Row.map]
        refine congrArg (Prod.mk row.1) (map_congr_left fun m hm => (hcp m ?_).symm)
        exact mem_flatMap.2 ⟨row, hrow, hm⟩
      · rw [flatMap_append, mem_append] at hm
        rcases hm with hm | hm
        · exact (hcopies₁ m hm).later hnoted (hlt₁ m (hin m hm).1) (hin m hm).2
        · have hmlt : m < s.fresh := by
            obtain ⟨row, hrow, hm'⟩ := mem_flatMap.1 (copyRows_subset hm)
            obtain ⟨q, -, rfl⟩ := mem_map.1 hrow
            exact (h.heads q m hm').2
          exact (hcopies m hm).earlier hnoted₁ hmlt
      · rw [horder htrue, horder₁ rfl, flatMap_cons, flatMap_append, insertAll_append]
        refine insertAll_congr (fun m hm => ?_) fun m hm => ?_
        · obtain ⟨q, -, hm'⟩ := mem_flatMap.1 hm
          exact hnoted₁.id (h.heads q m hm').2
        · rcases mem_append.1 ((insertAll_perm _ _ _).mem_iff.1 hm) with hm | hm
          · exact hnoted₁.id (hord m hm)
          · obtain ⟨q, -, hm'⟩ := mem_flatMap.1 hm
            exact hnoted₁.id (h.heads q m hm').2

structure Renumbered (s s' : St) : Prop where
  mount : ∀ f, s'.mount f = { s.mount f with mountid := s'.id f }
  hash : s'.hash = s.hash
  next : s'.next = s.next
  head : s'.head = s.head
  fresh : s'.fresh = s.fresh
  groups : s'.ref = s.ref ∧ s'.npgrp = s.npgrp

theorem Renumbered.refl : Renumbered s s := ⟨fun _ => rfl, rfl, rfl, rfl, rfl, rfl, rfl⟩

theorem renumber_renumbered (order : List Nat) {s₁ : St} (h : Renumbered s s₁) : Renumbered s (renumber order s₁) := by
  induction order generalizing s₁ with
  | nil => exact h
  | cons m order ih =>
    rw [renumber]
    cases (s₁.mount m).copy with
    | none => exact ih h
    | some c =>
      refine ih ⟨fun f => ?_, h.hash, h.next, h.head, h.fresh, h.groups⟩
      by_cases hf : f = c
      · subst hf
        simp only [St.id, update_self]
        rw [h.mount f]
      · simp only [St.id, update_of_ne hf]
        rw [h.mount f]

namespace Renumbered

section
variable (h : Renumbered s s')
include h

theorem loc : s'.loc = s.loc := loc_eq_of_head h.head

theorem member (f : Nat) : s'.member f = s.member f := by
  rw [St.member, h.mount f, St.member]

theorem cp : s'.cp = s.cp := by
  funext f
  rw [St.cp, h.mount f, St.cp]

theorem ok (hok : Ok s own hs fs) : Ok s' own hs fs :=
  hok.congr h.hash h.next h.loc (fun f => by rw [h.mount f]) h.fresh

theorem frame : Frame s s' := frame_of_eq h.fresh h.loc h.member h.groups.1 h.groups.2

end

end Renumbered

def rowsOf (s : St) (hs : Nat → Nat → List Nat) (fs : Nat → List Nat) (pg : Nat) : List Row :=
  (headsOf hs pg).map (s.row fs)

theorem Ok.hs_eq_nil_of_clear {pg : Nat} (h : Ok s own hs fs) (hclear : s.clear pg = true) (i : Nat) :
    hs pg i = [] := by
  by_cases hi : i < MNTHASH
  · have hnone := all_eq_true.1 hclear i (mem_range.2 hi)
    have hch := h.hash pg i
    cases hhs : hs pg i with
    | nil => rfl
    | cons m ms =>
      rw [hhs] at hch
      rw [hch.1] at hnone
      cases hnone
  · exact h.hs_eq_nil (le_of_not_gt hi)

variable (env) in
theorem pgrpcpy_spec {topg frmpg : Nat} (h : Ok s own hs fs) (hpg : frmpg ≠ topg) (hclear : s.clear topg = true) :
    let r := pgrpcpy env topg frmpg s
    let c := copyRows s.room (rowsOf s hs fs frmpg)
    ∃ own' hs' fs', Ok r.2 own' hs' fs' ∧ Frame s r.2 ∧ (∀ m < s.fresh, fs' m = fs m ∧ own' m = own m) ∧
      (∀ pg, pg ≠ topg → hs' pg = hs pg) ∧ rowsOf r.2 hs' fs' topg = c.2.1.map (Row.map r.2.cp) ∧
      (r.1 = .ok () ↔ c.1 = true) ∧ ∀ m ∈ c.2.1.flatMap Prod.snd, r.2.member (r.2.cp m) = s.member m := by
  intro r c
  obtain ⟨own', hs', fs', hok, hnoted, hkeep, hfrm, hto, hrows, hr, hcopies, horder, -⟩ :=
    copyBuckets_spec env (List.range MNTHASH) [] h hpg (fun i _ => h.hs_eq_nil_of_clear hclear i) nodup_range nofun
  have hcpy : r = match copyBuckets env topg frmpg (List.range MNTHASH) [] s with
    | (false, _, s) => (.error .Enomem, s)
    | (true, order, s) => (.ok (), renumber order (others (env order.length) s)) := rfl
  generalize copyBuckets env topg frmpg (List.range MNTHASH) [] s = b at *
  obtain ⟨b, order, s₁⟩ := b
  dsimp only at hok hnoted hkeep hfrm hto hrows hr hcopies horder hcpy
  cases b with
  | false =>
    rw [hcpy]
    refine ⟨own', hs', fs', hok, hnoted.frame, hkeep, hfrm, hrows, ?_, fun m hm => (hcopies m hm).member⟩
    exact ⟨nofun, fun hc => absurd (hr.trans hc) nofun⟩
  | true =>
    dsimp only at hcpy
    have halloc : Alloc s₁ (others (env order.length) s₁) := Alloc.refl.others _
    have hren := renumber_renumbered order (Renumbered.refl (s := others (env order.length) s₁))
    generalize others (env order.length) s₁ = s₂ at *
    generalize renumber order s₂ = s₃ at *
    rw [hcpy]
    have hlt : ∀ m ∈ c.2.1.flatMap Prod.snd, m < s₁.fresh := by
      intro m hm
      obtain ⟨row, hrow, hm⟩ := mem_flatMap.1 (copyRows_subset hm)
      obtain ⟨q, -, rfl⟩ := mem_map.1 hrow
      exact lt_of_lt_of_le (h.heads q m hm).2 hnoted.frame.fresh
    have hcp : ∀ m ∈ c.2.1.flatMap Prod.snd, s₃.cp m = s₁.cp m := fun m hm => by
      rw [hren.cp, St.cp, halloc.mount m (hlt m hm), St.cp]
    have hloc : ∀ m < s₁.fresh, s₃.loc m = s₁.loc m := fun m hm => by
      rw [hren.loc, halloc.frame.loc m hm]
    refine ⟨own', hs', fs', hren.ok (halloc.ok hok), (hnoted.frame.trans halloc.frame).trans hren.frame, hkeep,
      hfrm, ?_,
      ⟨fun _ => hr.symm, fun _ => rfl⟩, fun m hm => ?_⟩
    · have hrow : rowsOf s₃ hs' fs' topg = rowsOf s₁ hs' fs' topg := map_congr_left fun m hm => by
        rw [St.row, hloc m (hok.lt_of_headsOf hm), St.row]
      refine hrow.trans (hrows.trans (map_congr_left fun row hrow => ?_))
      rw [Row.map, Row.map]
      exact congrArg (Prod.mk row.1)
        (map_congr_left fun m hm => (hcp m (mem_flatMap.2 ⟨row, hrow, hm⟩)).symm)
    · rw [hcp m hm, hren.member, halloc.frame.member _ (hcopies m hm).lt]
      exact (hcopies m hm).member

end Node9.Mounts
