import Node9.MountsTable

/-!
# The order of a union

What a name resolves to is the list of the members of its mount point. `cmount` puts the new members before the
old ones, after them, or in their place, and `cunmount` takes one away. The directory itself is put into a new
union only where there is no `Mhead` yet: one with an empty list, which a failed `cmount` has left, is not filled.
-/

namespace Node9.Mounts
open Linked Steps Function
open Option hiding mem_map_of_mem
open List hiding Chain

/-- What is mounted on `a`, or `none` if it is an ordinary file. -/
def St.members (s : St) (pg : Nat) (a : Loc) : Option (List Member) :=
  (s.lookup pg a).2.map fun m => (s.list m).map s.member

/-- The union that `order` says is on `old` before the mount. -/
def unionBefore (members : Option (List Member)) (old : Chan) (order : BitVec 32) : List Member :=
  match members.getD [] with
  | [] => if order = MREPL then [] else [⟨old, 0, none⟩]
  | L => L

/-- What a mount of `new` adds. -/
def added (s : St) (new : Chan) (umh : Option Nat) (flag : BitVec 32) (spec : Option String) : List Member :=
  ⟨new, flag, spec⟩ :: ((s.rest umh).map s.member).map fun u =>
    { u with mflag := if flag &&& MORDER = MREPL then MAFTER else flag &&& MORDER }

/-- The member is of the channel, or of one that it is the server of. -/
def Member.isMounted (mounted : Loc) (x : Member) : Bool :=
  eqchan x.toc.loc mounted || x.toc.mchan.any fun c => eqchan c mounted

/-- What is mounted elsewhere stays. -/
def Others (s s' : St) (pg : Nat) (a : Loc) : Prop := ∀ pg' a', (pg', a') ≠ (pg, a) → s'.members pg' a' =
    s.members pg' a'

def InOrder (s s' : St) (pg : Nat) (new old : Chan) (umh : Option Nat) (flag : BitVec 32) (spec : Option String) :
    Prop :=
  let order := flag &&& MORDER
  let L := unionBefore (s.members pg old.loc) old order
  let N := added s new umh flag spec
  (order = MREPL → s'.members pg old.loc = some N) ∧ (order = MBEFORE → s'.members pg old.loc = some (N ++ L)) ∧
    (order = MAFTER → s'.members pg old.loc = some (L ++ N)) ∧ Others s s' pg old.loc

def Lists (s : St) : Prop := ∃ own hs fs, Ok s own hs fs

variable {s s' : St} {own : Nat → Nat} {hs : Nat → Nat → List Nat} {fs : Nat → List Nat}

theorem lists_mountOn {m : Nat} {new : Chan} {umh : Option Nat} {flag : BitVec 32} {spec : Option String}
    (h : Ok s own hs fs) (hm : m < s.fresh) : Lists (mountOn m new umh flag spec s).2 := by
  obtain ⟨hfail, hdone⟩ := mountOn_spec new umh flag spec h hm
  by_cases hroom : s.room ≤ (rest fs umh).length
  · exact ⟨own, hs, fs, (hfail hroom).2.ok h⟩
  · obtain ⟨-, -, hok, -⟩ := hdone (by omega)
    exact ⟨own, hs, _, hok⟩

theorem lists_cmount {pg : Nat} {new old : Chan} {umh : Option Nat} {flag : BitVec 32} {spec : Option String}
    (h : Lists s) : Lists (cmount pg new old umh flag spec s).2 := by
  by_cases hr : refused s new old umh flag
  · obtain ⟨e, he⟩ := cmount_refused pg spec hr
    rw [he]
    exact h
  obtain ⟨own, hs, fs, hok⟩ := h
  cases hlook : (s.lookup pg old.loc).2 with
  | some m =>
    rw [cmount_old hr hlook]
    exact lists_mountOn hok (hok.bucket _ _ m (hok.lookup_some hlook).1).2.2
  | none =>
    obtain ⟨-, hsome, hlt, hok', -⟩ := mountHead_none (flag &&& MORDER) hok hlook
    rw [cmount_eq hr]
    generalize mountHead pg old (flag &&& MORDER) s = r at *
    obtain ⟨m, s₁⟩ := r
    dsimp only at *
    cases m with
    | none => exact ⟨_, _, _, hok'⟩
    | some m =>
      obtain rfl : m = s.fresh := by
        split at hsome
        · exact some.inj hsome
        · cases hsome
      exact lists_mountOn hok' hlt

theorem lists_step {a : Act} (h : Lists s) (hs : step s a = some s') : Lists s' := by
  have hroom : ∀ room, Lists { s with room := room } := fun room => by
    obtain ⟨own, hs, fs, hok⟩ := h
    exact ⟨own, hs, fs, hok.congr rfl rfl rfl (fun _ => rfl) rfl⟩
  cases a with
  | newpgrp =>
    cases hs
    obtain ⟨own, hs, fs, hok⟩ := h
    exact ⟨own, _, fs, (newpgrp_spec hok).1⟩
  | incref pg =>
    simp only [step, ite_none_right_eq_some] at hs
    cases hs.2
    obtain ⟨own, hs, fs, hok⟩ := h
    exact ⟨own, hs, fs, hok.congr rfl rfl rfl (fun _ => rfl) rfl⟩
  | closepgrp pg =>
    simp only [step, ite_none_right_eq_some] at hs
    cases hs.2
    obtain ⟨own, hs, fs, hok⟩ := h
    exact ⟨own, hs, _, (closepgrp_spec _ hok).1⟩
  | cmount room pg new old umh flag spec =>
    simp only [step, ite_none_right_eq_some] at hs
    cases hs.2
    exact lists_cmount (hroom room)
  | cunmount pg mnt mounted =>
    simp only [step, ite_none_right_eq_some] at hs
    cases hs.2
    obtain ⟨own, hs, fs, hok⟩ := h
    by_cases hno : ∀ m, (s.lookup pg mnt).2 = some m → ∃ c, mounted = some c ∧ (fs m).find? (isMounted s c) = none
    · rw [(cunmount_error hok hno).1]
      exact ⟨own, hs, fs, hok⟩
    · push Not at hno
      obtain ⟨m, hm, hfind⟩ := hno
      exact ⟨own, _, _, (cunmount_spec hok hm hfind).2.2.1⟩
  | newmount n =>
    cases hs
    obtain ⟨own, hs, fs, hok⟩ := h
    exact ⟨own, hs, fs, (Alloc.refl.others [n]).ok hok⟩
  | pgrpcpy room env topg frmpg =>
    simp only [step, ite_none_right_eq_some] at hs
    obtain ⟨⟨-, -, hpg, hclear⟩, hs⟩ := hs
    cases hs
    obtain ⟨own, hs, fs, hok⟩ := hroom room
    obtain ⟨own', hs', fs', hok', -⟩ := pgrpcpy_spec env hok hpg hclear
    exact ⟨own', hs', fs', hok'⟩

theorem lists_of_run {as : List Act} (hrun : run step init as = some s) : Lists s := by
  refine (always_of_step (I := Lists) (fun _ _ _ h hs => lists_step h hs) ?_).last hrun
  obtain ⟨own, hs, fs, hok, -⟩ := inv_init
  exact ⟨own, hs, fs, hok⟩

theorem Ok.members_of_mem {pg m : Nat} (h : Ok s own hs fs) (hm : m ∈ headsOf hs pg) :
    s.members pg (s.loc m) = some ((fs m).map s.member) := by
  rw [St.members, h.lookup_of_mem (h.mem_headsOf.1 hm), map_some, h.list_eq]

theorem Ok.members_none {pg : Nat} {a : Loc} (h : Ok s own hs fs) (hno : ∀ m ∈ headsOf hs pg, s.loc m ≠ a) :
    s.members pg a = none := by
  cases hlook : (s.lookup pg a).2 with
  | none => rw [St.members, hlook, map_none]
  | some m =>
    obtain ⟨hm, rfl⟩ := h.lookup_some hlook
    exact absurd rfl (hno m (h.mem_headsOf.2 hm))

theorem Ok.members_congr {own' : Nat → Nat} {hs' : Nat → Nat → List Nat} {fs' : Nat → List Nat} {pg : Nat} {a : Loc}
    (h : Ok s own hs fs) (h' : Ok s' own' hs' fs')
    (hheads : ∀ m, (m ∈ headsOf hs' pg ∧ s'.loc m = a) ↔ (m ∈ headsOf hs pg ∧ s.loc m = a))
    (hlist : ∀ m ∈ headsOf hs pg, s.loc m = a → (fs' m).map s'.member = (fs m).map s.member) :
    s'.members pg a = s.members pg a := by
  by_cases hex : ∃ m ∈ headsOf hs pg, s.loc m = a
  · obtain ⟨m, hm, rfl⟩ := hex
    obtain ⟨hm', hloc⟩ := (hheads m).2 ⟨hm, rfl⟩
    rw [h.members_of_mem hm, ← hloc, h'.members_of_mem hm', hlist m hm rfl]
  · rw [h.members_none fun m hm heq => hex ⟨m, hm, heq⟩, h'.members_none fun m hm heq => ?_]
    exact hex ⟨m, (hheads m).1 ⟨hm, heq⟩⟩

theorem map_ordered {α β : Type} (g : α → β) (order : BitVec 32) (L N : List α) :
    (ordered order L N).map g = ordered order (L.map g) (N.map g) := by
  unfold ordered
  split
  · rfl
  · split <;> rw [map_append]

theorem members_mountOn {m pg : Nat} {new : Chan} {umh : Option Nat} {flag : BitVec 32} {spec : Option String}
    {id : Nat} (h : Ok s own hs fs) (hm : m ∈ headsOf hs pg) (hdone : (mountOn m new umh flag spec s).1 = .ok id) :
    (mountOn m new umh flag spec s).2.members pg (s.loc m) =
        some (ordered (flag &&& MORDER) ((fs m).map s.member) (added s new umh flag spec)) ∧
      Others s (mountOn m new umh flag spec s).2 pg (s.loc m) := by
  have hmlt := h.lt_of_headsOf hm
  obtain ⟨hfail, hok⟩ := mountOn_spec new umh flag spec h hmlt
  have hroom : ¬ s.room ≤ (rest fs umh).length := by
    intro hle
    rw [(hfail hle).1] at hdone
    cases hdone
  obtain ⟨-, hframe, hok', hN, -⟩ := hok (by omega)
  generalize (mountOn m new umh flag spec s).2 = s' at *
  have hmap : ∀ m' : Nat, (fs m').map s'.member = (fs m').map s.member := fun m' =>
    map_congr_left fun f hf => hframe.member f (h.heads m' f hf).2
  refine ⟨?_, fun pg' a hne => ?_⟩
  · have hmem := hok'.members_of_mem hm
    rw [hframe.loc m hmlt, update_self, map_ordered, hmap, hN] at hmem
    rw [hmem, added, h.rest_eq, List.map_map]
    rfl
  refine h.members_congr hok' (fun m' => and_congr_right fun hm' => ?_) fun m' hm' hloc => ?_
  · rw [hframe.loc m' (h.lt_of_headsOf hm')]
  · have hmm : m' ≠ m := by
      rintro rfl
      exact hne (by rw [← h.own_eq hm', h.own_eq hm, hloc])
    rw [update_of_ne hmm, hmap]

theorem members_mountHead {pg m : Nat} {old : Chan} (order : BitVec 32) (h : Ok s own hs fs)
    (hlook : (s.lookup pg old.loc).2 = none) (hm : (mountHead pg old order s).1 = some m) :
    let s₁ := (mountHead pg old order s).2
    (∃ own₁ hs₁ fs₁, Ok s₁ own₁ hs₁ fs₁ ∧ m ∈ headsOf hs₁ pg ∧ s₁.loc m = old.loc ∧
      (fs₁ m).map s₁.member = unionBefore none old order ∧ ∀ m' < s.fresh, fs₁ m' = fs m') ∧
      Others s s₁ pg old.loc ∧ Frame s s₁ := by
  obtain ⟨hframe, hsome, -, hok', hloc, hnew, -⟩ := mountHead_none order h hlook
  generalize mountHead pg old order s = r at *
  obtain ⟨m', s₁⟩ := r
  dsimp only at *
  generalize hfs₁ : (if order = MREPL ∨ s.room = 0 then fs else update fs s.fresh [s.fresh + 1]) = fs₁ at hok'
  have hkeep : ∀ m' < s.fresh, fs₁ m' = fs m' := by
    intro m' hm'
    rw [← hfs₁]
    split
    · rfl
    · exact update_of_ne (ne_of_lt hm') _ _
  have hlist : (fs₁ s.fresh).map s₁.member = unionBefore none old order := by
    rw [hm] at hsome
    rw [← hfs₁]
    by_cases hord : order = MREPL
    · rw [if_pos (.inl hord), h.new _ (le_refl _)]
      simp [unionBefore, hord]
    · have hroom : s.room ≠ 0 := fun h0 => by simp [hord, h0] at hsome
      rw [if_neg (by simp [hord, hroom]), update_self]
      simp [unionBefore, hord, hnew hord hroom]
  have hmf : m = s.fresh := by
    rw [hm] at hsome
    split at hsome
    · exact some.inj hsome
    · cases hsome
  rw [hmf]
  refine ⟨⟨_, _, fs₁, hok', mem_headsOf_addHead.2 (.inr ⟨rfl, rfl⟩), hloc, hlist, hkeep⟩, fun pg' a hne => ?_, hframe⟩
  refine h.members_congr hok' (fun m' => ?_) fun m' hm' _ => ?_
  · rw [mem_headsOf_addHead]
    constructor
    · rintro ⟨hm' | ⟨rfl, rfl⟩, rfl⟩
      · exact ⟨hm', (hframe.loc m' (h.lt_of_headsOf hm')).symm⟩
      · exact absurd (by rw [hloc]) hne
    · rintro ⟨hm', rfl⟩
      exact ⟨.inl hm', hframe.loc m' (h.lt_of_headsOf hm')⟩
  · rw [hkeep m' (h.lt_of_headsOf hm')]
    exact map_congr_left fun f hf => hframe.member f (h.heads m' f hf).2

theorem ordered_eq {α : Type} (order : BitVec 32) (L N : List α) :
    (order = MREPL → ordered order L N = N) ∧ (order = MBEFORE → ordered order L N = N ++ L) ∧
      (order = MAFTER → ordered order L N = L ++ N) := by
  unfold ordered
  refine ⟨fun h => if_pos h, fun h => ?_, fun h => ?_⟩
  · rw [h, if_neg (by decide), if_neg (by decide)]
  · rw [h, if_neg (by decide), if_pos rfl]

theorem inOrder_of_ordered {pg : Nat} {new old : Chan} {umh : Option Nat} {flag : BitVec 32} {spec : Option String}
    (hlist : s'.members pg old.loc = some (ordered (flag &&& MORDER)
      (unionBefore (s.members pg old.loc) old (flag &&& MORDER)) (added s new umh flag spec)))
    (hothers : Others s s' pg old.loc) : InOrder s s' pg new old umh flag spec := by
  obtain ⟨h₁, h₂, h₃⟩ := ordered_eq (flag &&& MORDER) (unionBefore (s.members pg old.loc) old (flag &&& MORDER))
    (added s new umh flag spec)
  refine ⟨fun h => ?_, fun h => ?_, fun h => ?_, hothers⟩
  · rw [hlist, h₁ h]
  · rw [hlist, h₂ h]
  · rw [hlist, h₃ h]

/-- `cmount` leaves the lists in the order that the flag says, exactly if `old` does not have an empty list already. -/
theorem inOrder_cmount {pg : Nat} {new old : Chan} {umh : Option Nat} {flag : BitVec 32} {spec : Option String}
    {id : Nat}
    (h : Lists s) (humh : ∀ mh ∈ umh, mh < s.fresh) (hdone : (cmount pg new old umh flag spec s).1 = .ok id) :
    InOrder s (cmount pg new old umh flag spec s).2 pg new old umh flag spec ↔
      ¬ (s.members pg old.loc = some [] ∧ (flag &&& MORDER = MBEFORE ∨ flag &&& MORDER = MAFTER)) := by
  have hr : ¬ refused s new old umh flag := by
    intro hr
    obtain ⟨e, he⟩ := cmount_refused pg spec hr
    rw [he] at hdone
    cases hdone
  obtain ⟨own, hs, fs, hok⟩ := h
  cases hlook : (s.lookup pg old.loc).2 with
  | some m =>
    rw [cmount_old hr hlook] at hdone ⊢
    obtain ⟨hm, hloc⟩ := hok.lookup_some hlook
    rw [← hloc] at hm
    have hm := hok.mem_headsOf.2 hm
    obtain ⟨hlist, hothers⟩ := members_mountOn hok hm hdone
    have hbefore := hok.members_of_mem hm
    rw [hloc] at hlist hothers hbefore
    by_cases hnil : (fs m).map s.member = []
    · rw [hnil] at hlist hbefore
      obtain ⟨h₁, h₂, h₃⟩ := ordered_eq (flag &&& MORDER) ([] : List Member) (added s new umh flag spec)
      constructor
      · rintro ⟨-, hb, ha, -⟩ ⟨-, hord⟩
        have hne : flag &&& MORDER ≠ MREPL := by rcases hord with hord | hord <;> rw [hord] <;> decide
        have hL : unionBefore (s.members pg old.loc) old (flag &&& MORDER) = [⟨old, 0, none⟩] := by
          rw [hbefore]
          simp [unionBefore, hne]
        rw [hL] at ha hb
        rcases hord with hord | hord
        · have hlen := hlist.symm.trans (hb hord)
          rw [h₂ hord, append_nil] at hlen
          simpa using congrArg List.length (some.inj hlen)
        · have hlen := hlist.symm.trans (ha hord)
          rw [h₃ hord, nil_append] at hlen
          simpa using congrArg List.length (some.inj hlen)
      · intro hnot
        refine ⟨fun hord => ?_, fun hord => absurd ⟨hbefore, .inl hord⟩ hnot, fun hord => absurd ⟨hbefore,
          .inr hord⟩ hnot,
          hothers⟩
        rw [hlist, h₁ hord]
    · refine ⟨fun _ hcond => hnil (some.inj (hbefore.symm.trans hcond.1)), fun _ => ?_⟩
      refine inOrder_of_ordered ?_ hothers
      have hL : unionBefore (s.members pg old.loc) old (flag &&& MORDER) = (fs m).map s.member := by
        rw [hbefore]
        obtain ⟨x, xs, hxs⟩ := exists_cons_of_ne_nil hnil
        rw [hxs]
        rfl
      rw [hL]
      exact hlist
  | none =>
    have hbefore : s.members pg old.loc = none := by rw [St.members, hlook, map_none]
    refine ⟨fun _ hcond => by rw [hbefore] at hcond; exact absurd hcond.1 nofun, fun _ => ?_⟩
    rw [cmount_eq hr] at hdone ⊢
    have hhead := members_mountHead (m := s.fresh) (flag &&& MORDER) hok hlook
    have hsome := (mountHead_none (flag &&& MORDER) hok hlook).2.1
    generalize mountHead pg old (flag &&& MORDER) s = r at *
    obtain ⟨m, s₁⟩ := r
    dsimp only at hdone hhead hsome ⊢
    cases m with
    | none => cases hdone
    | some m =>
      have hm : some m = some s.fresh := by
        split at hsome
        · exact hsome
        · cases hsome
      cases hm
      obtain ⟨⟨own₁, hs₁, fs₁, hok₁, hmem, hloc, hlist₁, hkeep⟩, hothers₁, hframe⟩ := hhead rfl
      obtain ⟨hlist, hothers⟩ := members_mountOn hok₁ hmem hdone
      rw [hloc] at hlist hothers
      have hadded : added s₁ new umh flag spec = added s new umh flag spec := by
        have hrest : (s₁.rest umh).map s₁.member = (s.rest umh).map s.member := by
          rw [hok₁.rest_eq, hok.rest_eq]
          cases umh with
          | none => rfl
          | some mh =>
            have hmh := hkeep mh (humh mh rfl)
            simp only [rest, elim_some, hmh]
            exact map_congr_left fun f hf => hframe.member f (hok.heads mh f (mem_of_mem_tail hf)).2
        rw [added, hrest, added]
      refine inOrder_of_ordered ?_ fun pg' a hne => (hothers pg' a hne).trans (hothers₁ pg' a hne)
      rw [hlist, hlist₁, hbefore, hadded]

def membersLeft (mounted : Option Loc) (L : List Member) : List Member :=
  match mounted with
  | none => []
  | some c => L.eraseP (Member.isMounted c)

def Unmounted (s s' : St) (pg : Nat) (mnt : Loc) (mounted : Option Loc) : Prop :=
  ∃ L, s.members pg mnt = some L ∧ (∀ c ∈ mounted, ∃ x ∈ L, x.isMounted c = true) ∧
    s'.members pg mnt = (if membersLeft mounted L = [] then none else some (membersLeft mounted L)) ∧
    Others s s' pg mnt

theorem remaining_map {mounted : Option Loc} {xs : List Nat} :
    (remaining s mounted xs).map s.member = membersLeft mounted (xs.map s.member) := by
  cases mounted with
  | none => rfl
  | some c =>
    show (xs.eraseP (isMounted s c)).map s.member = (xs.map s.member).eraseP (Member.isMounted c)
    rw [eraseP_map]
    rfl

theorem unmounted_cunmount {pg : Nat} {mnt : Loc} {mounted : Option Loc} (h : Lists s) :
    (cunmount pg mnt mounted s).1 = .ok () ∧ Unmounted s (cunmount pg mnt mounted s).2 pg mnt mounted ∨
      (∃ e, (cunmount pg mnt mounted s).1 = .error e) ∧ (cunmount pg mnt mounted s).2 = s := by
  obtain ⟨own, hs, fs, hok⟩ := h
  by_cases hno : ∀ m, (s.lookup pg mnt).2 = some m → ∃ c, mounted = some c ∧ (fs m).find? (isMounted s c) = none
  · exact .inr (cunmount_error hok hno).symm
  push Not at hno
  obtain ⟨m, hm, hfind⟩ := hno
  obtain ⟨hdone, hframe, hok', -⟩ := cunmount_spec hok hm hfind
  generalize (cunmount pg mnt mounted s).2 = s' at *
  obtain ⟨hmem, hloc⟩ := hok.lookup_some hm
  have hmhead : m ∈ headsOf hs pg := hok.mem_headsOf.2 (hloc.symm ▸ hmem)
  have hmap : ∀ m' : Nat, (fs m').map s'.member = (fs m').map s.member := fun m' =>
    map_congr_left fun f hf => hframe.member f (hok.heads m' f hf).2
  have hleft : (remaining s mounted (fs m)).map s'.member = membersLeft mounted ((fs m).map s.member) := by
    rw [← remaining_map]
    refine map_congr_left fun f hf => hframe.member f (hok.heads m f ?_).2
    cases mounted with
    | none => cases hf
    | some c => exact mem_of_mem_eraseP hf
  refine .inl ⟨hdone, (fs m).map s.member, ?_, fun c hc => ?_, ?_, fun pg' a hne => ?_⟩
  · rw [← hloc]
    exact hok.members_of_mem hmhead
  · obtain ⟨f, hf⟩ := ne_none_iff_exists'.1 (hfind c hc)
    exact ⟨s.member f, mem_map_of_mem (mem_of_find?_eq_some hf), List.find?_some (p := isMounted s c) hf⟩
  · rw [← hleft]
    by_cases hnil : remaining s mounted (fs m) = []
    · rw [if_pos hnil] at hok'
      rw [hnil, map_nil, if_pos rfl]
      refine hok'.members_none fun m' hm' heq => ?_
      have hm₀ := headsOf_dropHead hm'
      rw [hframe.loc m' (hok.lt_of_headsOf hm₀)] at heq
      have hlook := hok.lookup_of_mem (hok.mem_headsOf.1 hm₀)
      rw [heq, hm] at hlook
      cases hlook
      exact not_mem_dropHead hok hm hm'
    · rw [if_neg hnil] at hok'
      rw [if_neg fun heq => hnil (map_eq_nil_iff.1 heq)]
      have hmem' := hok'.members_of_mem hmhead
      rwa [hframe.loc m (hok.lt_of_headsOf hmhead), hloc, update_self] at hmem'
  · refine hok.members_congr hok' (fun m' => ?_) fun m' hm' hloc' => ?_
    · have hlocm : m' ∈ headsOf hs pg' → s'.loc m' = s.loc m' := fun hm' => hframe.loc m' (hok.lt_of_headsOf hm')
      split
      · constructor
        · rintro ⟨hm', rfl⟩
          have hm₀ := headsOf_dropHead hm'
          exact ⟨hm₀, (hlocm hm₀).symm⟩
        · rintro ⟨hm', rfl⟩
          refine ⟨mem_headsOf_dropHead hm' fun hpg heq => hne ?_, hlocm hm'⟩
          rw [hpg, heq]
      · exact and_congr_right fun hm' => by rw [hlocm hm']
    · have hmm : m' ≠ m := by
        rintro rfl
        exact hne (by rw [← hok.own_eq hm', hok.own_eq hmhead, ← hloc', hloc])
      rw [update_of_ne hmm, hmap]

/-- In every name space a mount that is made is in the order that its flag says, exactly if there is no empty list on
`old` to begin with, and `cunmount` takes the first member that it is asked for, or changes nothing. -/
theorem mounts_inOrder (as : List Act) (hrun : run step init as = some s) :
    (∀ room pg new old umh flag spec s' id, step s (.cmount room pg new old umh flag spec) = some s' →
      (cmount pg new old umh flag spec { s with room := room }).1 = .ok id →
      (InOrder s s' pg new old umh flag spec ↔
        ¬ (s.members pg old.loc = some [] ∧ (flag &&& MORDER = MBEFORE ∨ flag &&& MORDER = MAFTER)))) ∧
      ∀ pg mnt mounted s', step s (.cunmount pg mnt mounted) = some s' →
        (cunmount pg mnt mounted s).1 = .ok () ∧ Unmounted s s' pg mnt mounted ∨
          (∃ e, (cunmount pg mnt mounted s).1 = .error e) ∧ s' = s := by
  have hlists := lists_of_run hrun
  refine ⟨fun room pg new old umh flag spec s' id hstep hdone => ?_, fun pg mnt mounted s' hstep => ?_⟩
  · simp only [step, ite_none_right_eq_some] at hstep
    obtain ⟨⟨-, humh⟩, hstep⟩ := hstep
    cases hstep
    obtain ⟨own, hs, fs, hok⟩ := hlists
    have hroom : Lists { s with room := room } := ⟨own, hs, fs, hok.congr rfl rfl rfl (fun _ => rfl) rfl⟩
    refine inOrder_cmount hroom (fun mh hmh => ?_) hdone
    cases hmh
    simpa using humh
  · simp only [step, ite_none_right_eq_some] at hstep
    cases hstep.2
    exact unmounted_cunmount hlists

/-- `B` before `A`, and then `A` an ordinary directory again. -/
theorem mounts_inOrder_before :
    let s := newpgrp init
    let s' := (cmount 0 chanB chanA none MBEFORE none { s with room := 2 }).2
    InOrder s s' 0 chanB chanA none MBEFORE none ∧
      ((cunmount 0 chanA.loc none s').1 = .ok () ∧ Unmounted s' (cunmount 0 chanA.loc none s').2 0 chanA.loc none ∨
        (∃ e, (cunmount 0 chanA.loc none s').1 = .error e) ∧ (cunmount 0 chanA.loc none s').2 = s') :=
  ⟨((mounts_inOrder [.newpgrp] rfl).1 2 0 chanB chanA none MBEFORE none _ 2 rfl rfl).2 (by decide),
    (mounts_inOrder [.newpgrp, .cmount 2 0 chanB chanA none MBEFORE none] rfl).2 0 chanA.loc none _ rfl⟩

/-- After a mount on `A` that found no memory, `bind -a` does not put `A` into the union. -/
theorem not_inOrder_emptyHead : ¬ ∀ as s room pg new old umh flag spec s' id, run step init as = some s →
    step s (.cmount room pg new old umh flag spec) = some s' →
    (cmount pg new old umh flag spec { s with room := room }).1 = .ok id →
    InOrder s s' pg new old umh flag spec := by
  intro h
  let s : St := (cmount 0 chanB chanA none MREPL none { newpgrp init with room := 0 }).2
  let s' : St := (cmount 0 chanB chanA none MAFTER none { s with room := 1 }).2
  have hrun : run step init [.newpgrp, .cmount 0 0 chanB chanA none MREPL none] = some s := rfl
  have hord := h _ s 1 0 chanB chanA none MAFTER none s' 1 hrun rfl rfl
  have hlist : s'.members 0 chanA.loc = some [⟨chanB, MAFTER, none⟩] := rfl
  have hclaim : s'.members 0 chanA.loc = some [⟨chanA, 0, none⟩, ⟨chanB, MAFTER, none⟩] := hord.2.2.1 rfl
  rw [hlist] at hclaim
  cases hclaim

end Node9.Mounts
