import Node9.Fds

/-!
# New descriptor groups (`Sys_pctl` in `node9.c`)

The descriptor groups of some processes, with the counts of their references and those of the channels. A process
that asks for a new group leaves the old one to the others. `FORKFD` closes the listed descriptors while the caller
still is in the old group, so the others lose them, and the copy keeps them.
-/

namespace Node9.Pctl
open Fds List Option

variable {Chan : Type} [DecidableEq Chan]

structure Grp (Chan : Type) where
  f : Fgrp Chan
  r : Nat

/-- A group that is freed is `none`. `env` has the groups of the processes. -/
structure St (Chan : Type) where
  fgrp : List (Option (Grp Chan))
  env : List Nat
  ref : Chan → Nat

def incref (ref : Chan → Nat) (c : Chan) : Chan → Nat := Function.update ref c (ref c + 1)

def cclose (ref : Chan → Nat) (c : Chan) : Chan → Nat := Function.update ref c (ref c - 1)

/-- The loop of `dupfgrp`. -/
def increfs : List (Option Chan) → (Chan → Nat) → Chan → Nat
  | [], ref => ref
  | none :: tab, ref => increfs tab ref
  | some c :: tab, ref => increfs tab (incref ref c)

/-- The loop of `closefgrp`. -/
def ccloses : List (Option Chan) → (Chan → Nat) → Chan → Nat
  | [], ref => ref
  | none :: tab, ref => ccloses tab ref
  | some c :: tab, ref => ccloses tab (cclose ref c)

def group (s : St Chan) (g : Nat) : Option (Grp Chan) := (s.fgrp[g]?).join

def closefgrp (g : Nat) (s : St Chan) : St Chan :=
  match group s g with
  | none => s
  | some ⟨f, r⟩ =>
    if r - 1 = 0 then { s with fgrp := s.fgrp.set g none, ref := ccloses (f.fd.take (f.maxfd + 1)) s.ref }
    else { s with fgrp := s.fgrp.set g (some ⟨f, r - 1⟩) }

/-- `kclose` in the group `g`. -/
def closefd (g : Nat) (fd : Int) (s : St Chan) : St Chan :=
  match group s g with
  | none => s
  | some ⟨f, r⟩ =>
    match fdtochan f fd with
    | none => s
    | some c => { s with fgrp := s.fgrp.set g (some ⟨fdclose f fd.toNat, r⟩), ref := cclose s.ref c }

/-- The loop over the descriptors that are preserved, with the references it takes. -/
def preserve (ofg nfg : Fgrp Chan) (ref : Chan → Nat) : List Int → Fgrp Chan × (Chan → Nat)
  | [] => (nfg, ref)
  | fd :: fds =>
    if 0 ≤ fd ∧ fd ≤ ofg.maxfd then
      match ofg.fd.getD fd.toNat none with
      | some c =>
        if fd.toNat < nfg.nfd ∧ nfg.fd.getD fd.toNat none = none then
          preserve ofg { nfg with
            fd := nfg.fd.set fd.toNat (some c)
            maxfd := if nfg.maxfd < fd.toNat then fd.toNat else nfg.maxfd } (incref ref c) fds
        else preserve ofg nfg ref fds
      | none => preserve ofg nfg ref fds
    else preserve ofg nfg ref fds

/-- `mem` says whether there is memory for a group. Without it the caller gets an error. -/
def newFd (p : Nat) (fds : List Int) (mem : Bool) (s : St Chan) : Option (St Chan) :=
  match s.env[p]? with
  | none => none
  | some g =>
    match group s g with
    | none => none
    | some ⟨ofg, _⟩ =>
      if mem = false then none
      else
        let (nfg, ref) := preserve ofg (newfgrp (some ofg)) s.ref fds
        let s := { s with fgrp := s.fgrp ++ [some ⟨nfg, 1⟩], ref := ref, env := s.env.set p s.fgrp.length }
        some (closefgrp g s)

def forkFd (p : Nat) (fds : List Int) (mem : Bool) (s : St Chan) : Option (St Chan) :=
  match s.env[p]? with
  | none => none
  | some g =>
    match group s g with
    | none => none
    | some ⟨ofg, _⟩ =>
      if mem = false then none
      else
        let n := s.fgrp.length
        let s := { s with
          fgrp := s.fgrp ++ [some ⟨dupfgrp ofg, 1⟩]
          ref := increfs (ofg.fd.take (ofg.maxfd + 1)) s.ref }
        -- the caller still is in the old group
        let s := fds.foldl (fun s fd => closefd g fd s) s
        some (closefgrp g { s with env := s.env.set p n })

structure Flags where
  newfd : Bool
  forkfd : Bool

/-- `NEWFD` comes first. -/
def pctl (p : Nat) (flags : Flags) (fds : List Int) (mem : Bool) (s : St Chan) : Option (St Chan) :=
  if flags.newfd then newFd p fds mem s
  else if flags.forkfd then forkFd p fds mem s
  else some s

/-! ### What should hold -/

def desc (s : St Chan) (p : Nat) (i : Nat) : Option Chan :=
  ((s.env[p]?).bind (group s)).bind fun G => G.f.fd.getD i none

def slots (s : St Chan) (c : Chan) : Nat :=
  (s.fgrp.map fun x => x.elim 0 fun G => G.f.fd.count (some c)).sum

structure Sound (s : St Chan) : Prop where
  env : ∀ g ∈ s.env, ∃ G, group s g = some G
  group : ∀ g G, group s g = some G → Within G.f ∧ G.r = s.env.count g ∧ 0 < G.r
  ref : ∀ c, s.ref c = slots s c

/-- What the caller should have in a slot in which it has `x`. -/
def wanted (flags : Flags) (fds : List Int) (i : Nat) (x : Option Chan) : Option Chan :=
  if flags.newfd then if (i : Int) ∈ fds then x else none
  else if flags.forkfd then if (i : Int) ∈ fds then none else x
  else x

/-- The caller has a group of its own as it asked for, and the others see nothing of it. -/
structure Controlled (p : Nat) (flags : Flags) (fds : List Int) (s s' : St Chan) : Prop where
  caller : ∀ i, desc s' p i = wanted flags fds i (desc s p i)
  others : ∀ q, q ≠ p → ∀ i, desc s' q i = desc s q i
  ref : ∀ c, s'.ref c = slots s' c

variable {s s' : St Chan} {f nfg ofg : Fgrp Chan} {ref : Chan → Nat} {c d : Chan} {tab : List (Option Chan)}
    {g i p : Nat}
  {fds : List Int} {fd : Int} {mem : Bool} {flags : Flags}

theorem incref_apply : incref ref c d = ref d + if d = c then 1 else 0 := by
  unfold incref
  rw [Function.update_apply]
  split
  · next h => rw [h]
  · rfl

theorem cclose_apply : cclose ref c d = ref d - if d = c then 1 else 0 := by
  unfold cclose
  rw [Function.update_apply]
  split
  · next h => rw [h]
  · rfl

theorem increfs_apply : increfs tab ref d = ref d + tab.count (some d) := by
  induction tab generalizing ref with
  | nil => rfl
  | cons x tab ih =>
    cases x with
    | none =>
      rw [increfs, ih, List.count_cons]
      simp
    | some c =>
      rw [increfs, ih, incref_apply, List.count_cons]
      simp only [beq_iff_eq, some.injEq, eq_comm (a := d)]
      omega

theorem ccloses_apply : ccloses tab ref d = ref d - tab.count (some d) := by
  induction tab generalizing ref with
  | nil => rfl
  | cons x tab ih =>
    cases x with
    | none =>
      rw [ccloses, ih, List.count_cons]
      simp
    | some c =>
      rw [ccloses, ih, cclose_apply, List.count_cons]
      simp only [beq_iff_eq, some.injEq, eq_comm (a := d)]
      omega

theorem count_set {x y : Option Chan} (hi : tab[i]? = some y) :
    (tab.set i x).count (some c) + (if y = some c then 1 else 0) = tab.count (some c) + if x = some c then 1
    else 0 := by
  induction tab generalizing i with
  | nil => cases hi
  | cons z tab ih =>
    cases i with
    | zero =>
      cases hi
      simp only [set_cons_zero, List.count_cons, beq_iff_eq]
      omega
    | succ i =>
      have hrest := ih (i := i) hi
      simp only [set_cons_succ, List.count_cons]
      omega

theorem sum_set {α : Type} {w : α → Nat} {l : List α} {x y : α} (hi : l[i]? = some y) :
    ((l.set i x).map w).sum + w y = (l.map w).sum + w x := by
  induction l generalizing i with
  | nil => cases hi
  | cons z l ih =>
    cases i with
    | zero =>
      cases hi
      simp only [set_cons_zero, map_cons, sum_cons]
      omega
    | succ i =>
      have hrest := ih (i := i) hi
      simp only [set_cons_succ, map_cons, sum_cons]
      omega

theorem count_take (h : Within f) : (f.fd.take (f.maxfd + 1)).count (some c) = f.fd.count (some c) := by
  have hdrop : (f.fd.drop (f.maxfd + 1)).count (some c) = 0 := by
    rw [count_eq_zero]
    intro hmem
    obtain ⟨i, hi, heq⟩ := mem_iff_getElem.1 hmem
    rw [getElem_drop] at heq
    have hlt : f.maxfd + 1 + i < f.fd.length := by
      rw [length_drop] at hi
      omega
    have huse : f.InUse (f.maxfd + 1 + i) := by
      unfold Fgrp.InUse
      rw [getD_eq_getElem?_getD, List.getElem?_eq_getElem hlt, heq]
      exact some_ne_none c
    have hle := h.max _ huse
    omega
  have hsplit := congrArg (List.count (some c)) (take_append_drop (f.maxfd + 1) f.fd)
  rw [count_append] at hsplit
  omega

omit [DecidableEq Chan] in
theorem group_set {x : Option (Grp Chan)} (hg : ∃ G, group s g = some G) :
    group { s with fgrp := s.fgrp.set g x } i = if i = g then x else group s i := by
  obtain ⟨G, hG⟩ := hg
  have hlt : g < s.fgrp.length := by
    by_contra hge
    unfold group at hG
    rw [List.getElem?_eq_none (le_of_not_gt hge)] at hG
    cases hG
  unfold group
  dsimp only
  rw [List.getElem?_set]
  by_cases hig : i = g
  · rw [if_pos hig.symm, if_pos hlt, if_pos hig]
    rfl
  · rw [if_neg (Ne.symm hig), if_neg hig]

omit [DecidableEq Chan] in
theorem group_append {x : Grp Chan} :
    group { s with fgrp := s.fgrp ++ [some x] } i = if i = s.fgrp.length then some x else group s i := by
  unfold group
  dsimp only
  by_cases hi : i = s.fgrp.length
  · rw [if_pos hi, hi, List.getElem?_concat_length]
    rfl
  · rw [if_neg hi]
    by_cases hlt : i < s.fgrp.length
    · rw [List.getElem?_append_left hlt]
    · rw [List.getElem?_eq_none (by simp; omega), List.getElem?_eq_none (le_of_not_gt hlt)]

omit [DecidableEq Chan] in
theorem group_lt {G : Grp Chan} (h : group s g = some G) : g < s.fgrp.length ∧ s.fgrp[g]? = some (some G) := by
  unfold group at h
  cases hx : s.fgrp[g]? with
  | none =>
    rw [hx] at h
    cases h
  | some x =>
    rw [hx] at h
    exact ⟨(List.getElem?_eq_some_iff.1 hx).1, congrArg some h⟩

theorem slots_set {G : Grp Chan} {x : Option (Grp Chan)} (h : group s g = some G) :
    slots { s with fgrp := s.fgrp.set g x } c + G.f.fd.count (some c) = slots s c + x.elim 0 fun G => G.f.fd.count
    (some c) :=
  sum_set (w := fun x : Option (Grp Chan) => x.elim 0 fun G => G.f.fd.count (some c)) (group_lt h).2

theorem slots_append {G : Grp Chan} :
    slots { s with fgrp := s.fgrp ++ [some G] } c = slots s c + G.f.fd.count (some c) := by
  unfold slots
  simp

/-- The references are counted, when `w` tells those to the groups. -/
structure Sane (s : St Chan) (w : Nat → Nat) : Prop where
  env : ∀ g ∈ s.env, ∃ G, Pctl.group s g = some G
  group : ∀ g G, Pctl.group s g = some G → Within G.f ∧ G.r = w g ∧ 0 < G.r
  ref : ∀ c, s.ref c = slots s c

theorem Sound.sane (h : Sound s) : Sane s fun g => s.env.count g := ⟨h.env, h.group, h.ref⟩

variable {w : Nat → Nat}

theorem Sane.closefgrp (h : Sane s w) (hg : ∃ G, Pctl.group s g = some G) (hw : ∀ i,
    w i = s.env.count i + if i = g then 1 else 0) :
    Sound (closefgrp g s) ∧ (closefgrp g s).env = s.env ∧ ∀ q i, desc (closefgrp g s) q i = desc s q i := by
  obtain ⟨⟨f, r⟩, hG⟩ := hg
  obtain ⟨hok, hr, hpos⟩ := h.group g _ hG
  have hwg := hw g
  rw [if_pos rfl] at hwg
  unfold Pctl.closefgrp
  rw [hG]
  dsimp only at hok hr hpos ⊢
  by_cases hlast : r - 1 = 0
  · rw [if_pos hlast]
    have hgroup : ∀ i,
        Pctl.group { s with fgrp := s.fgrp.set g none, ref := ccloses (f.fd.take (f.maxfd + 1)) s.ref } i =
          if i = g then none else Pctl.group s i := fun i => group_set (x := none) ⟨_, hG⟩
    have hnot : g ∉ s.env := by
      rw [← count_eq_zero]
      omega
    refine ⟨⟨fun i hi => ?_, fun i G hGi => ?_, fun c => ?_⟩, rfl, fun q i => ?_⟩
    · have hig : i ≠ g := fun heq => hnot (heq ▸ hi)
      rw [hgroup, if_neg hig]
      exact h.env i hi
    · rw [hgroup] at hGi
      split at hGi
      · cases hGi
      · next hig =>
        have hwi := hw i
        rw [if_neg hig] at hwi
        obtain ⟨hok', hr', hpos'⟩ := h.group i G hGi
        exact ⟨hok', by rw [hr', hwi]; rfl, hpos'⟩
    · have hslots := slots_set (x := none) (c := c) hG
      have hsame : slots { s with fgrp := s.fgrp.set g none, ref := ccloses (f.fd.take (f.maxfd + 1)) s.ref } c =
          slots { s with fgrp := s.fgrp.set g none } c := rfl
      dsimp only at hslots
      rw [hsame]
      dsimp only
      rw [ccloses_apply, count_take hok, h.ref c]
      simp only [elim_none] at hslots
      omega
    · unfold desc
      cases hq : s.env[q]? with
      | none => rfl
      | some e =>
        have heg : e ≠ g := fun heq => hnot (heq ▸ mem_of_getElem? hq)
        rw [bind_some, hgroup, if_neg heg]
        rfl
  · rw [if_neg hlast]
    have hgroup : ∀ i, Pctl.group { s with fgrp := s.fgrp.set g (some ⟨f, r - 1⟩) } i =
        if i = g then some ⟨f, r - 1⟩ else Pctl.group s i := fun i => group_set ⟨_, hG⟩
    refine ⟨⟨fun i hi => ?_, fun i G hGi => ?_, fun c => ?_⟩, rfl, fun q i => ?_⟩
    · rw [hgroup]
      split
      · exact ⟨_, rfl⟩
      · exact h.env i hi
    · rw [hgroup] at hGi
      split at hGi
      · next hig =>
        cases hGi
        refine ⟨hok, ?_, Nat.pos_of_ne_zero hlast⟩
        rw [hig]
        dsimp only
        omega
      · next hig =>
        have hwi := hw i
        rw [if_neg hig] at hwi
        obtain ⟨hok', hr', hpos'⟩ := h.group i G hGi
        exact ⟨hok', by rw [hr', hwi]; rfl, hpos'⟩
    · have hslots := slots_set (x := some ⟨f, r - 1⟩) (c := c) hG
      dsimp only [elim_some] at hslots
      rw [h.ref c]
      omega
    · unfold desc
      cases hq : s.env[q]? with
      | none => rfl
      | some e =>
        rw [bind_some, hgroup, bind_some]
        split
        · next heg => rw [heg, hG]; rfl
        · rfl

omit [DecidableEq Chan] in
theorem kclose_getD (h : Within f) : (kclose f fd).fd.getD i none = if (i : Int) = fd then none
    else f.fd.getD i none := by
  have hnone : f.maxfd < i → f.fd.getD i none = none := by
    intro hi
    by_contra huse
    have hle := h.max i huse
    omega
  unfold kclose fdtochan
  by_cases hout : fd < 0 ∨ (f.maxfd : Int) < fd
  · rw [if_pos hout]
    dsimp only
    split
    · next heq => exact hnone (by omega)
    · rfl
  rw [if_neg hout]
  cases hc : f.fd.getD fd.toNat none with
  | none =>
    dsimp only
    split
    · next heq =>
      rw [← hc]
      congr 1
      omega
    · rfl
  | some c =>
    have hlt : fd.toNat < f.fd.length := by
      by_contra hge
      rw [getD_eq_getElem?_getD, List.getElem?_eq_none (le_of_not_gt hge)] at hc
      cases hc
    unfold fdclose
    rw [hc]
    dsimp only
    rw [getD_set hlt]
    by_cases heq : (i : Int) = fd
    · rw [if_pos heq, if_pos (by omega)]
    · rw [if_neg heq, if_neg (by omega)]

omit [DecidableEq Chan] in
theorem getElem?_of_getD {x : Option Chan} (h : tab.getD i none = x) (hx : x ≠ none) : tab[i]? = some x := by
  rw [getD_eq_getElem?_getD] at h
  cases hi : tab[i]? with
  | none =>
    rw [hi] at h
    exact absurd h.symm hx
  | some y =>
    rw [hi] at h
    exact congrArg some h

variable (fd) in
theorem closefd_spec {G : Grp Chan} (h : Sane s w) (hG : group s g = some G) :
    Sane (closefd g fd s) w ∧ (closefd g fd s).env = s.env ∧
      ∀ i, group (closefd g fd s) i = if i = g then some ⟨kclose G.f fd, G.r⟩ else group s i := by
  obtain ⟨f, r⟩ := G
  obtain ⟨hok, hr, hpos⟩ := h.group g _ hG
  unfold closefd
  rw [hG]
  dsimp only at hok hr hpos ⊢
  cases hc : fdtochan f fd with
  | none =>
    refine ⟨h, rfl, fun i => ?_⟩
    dsimp only
    have hk : kclose f fd = f := by
      unfold kclose
      rw [hc]
    split
    · next hig => rw [hig, hG, hk]
    · rfl
  | some c =>
    dsimp only
    have hk : kclose f fd = fdclose f fd.toNat := by
      unfold kclose
      rw [hc]
    have hgroup : ∀ i, group { s with fgrp := s.fgrp.set g (some ⟨fdclose f fd.toNat, r⟩), ref := cclose s.ref c } i =
        if i = g then some ⟨fdclose f fd.toNat, r⟩ else group s i := fun i => group_set ⟨_, hG⟩
    have hslot : f.fd.getD fd.toNat none = some c := by
      unfold fdtochan at hc
      split at hc
      · cases hc
      · exact hc
    refine ⟨⟨fun i hi => ?_, fun i G hGi => ?_, fun d => ?_⟩, rfl, fun i => ?_⟩
    · rw [hgroup]
      split
      · exact ⟨_, rfl⟩
      · exact h.env i hi
    · rw [hgroup] at hGi
      split at hGi
      · next hig =>
        cases hGi
        exact ⟨hok.fdclose, hig ▸ hr, hpos⟩
      · exact h.group i G hGi
    · have hslots := slots_set (x := some ⟨fdclose f fd.toNat, r⟩) (c := d) hG
      have hfd : (fdclose f fd.toNat).fd = f.fd.set fd.toNat none := by
        unfold fdclose
        rw [hslot]
      have hcount := count_set (x := none) (c := d) (getElem?_of_getD hslot (some_ne_none c))
      rw [elim_some, hfd] at hslots
      dsimp only at hslots
      have hsame : slots { s with fgrp := s.fgrp.set g (some ⟨fdclose f fd.toNat, r⟩), ref := cclose s.ref c } d =
          slots { s with fgrp := s.fgrp.set g (some ⟨fdclose f fd.toNat, r⟩) } d := rfl
      rw [hsame]
      dsimp only
      rw [cclose_apply, h.ref d]
      simp only [some.injEq, reduceCtorEq, if_false, eq_comm (a := c)] at hcount
      omega
    · rw [hgroup, hk]

theorem closefds_spec {G : Grp Chan} (h : Sane s w) (hG : group s g = some G) :
    Sane (fds.foldl (fun s fd => closefd g fd s) s) w ∧ (fds.foldl (fun s fd => closefd g fd s) s).env = s.env ∧
      ∃ G', group (fds.foldl (fun s fd => closefd g fd s) s) g = some G' ∧
        (∀ i : Nat, G'.f.fd.getD i none = if (i : Int) ∈ fds then none else G.f.fd.getD i none) ∧
        ∀ i, i ≠ g → group (fds.foldl (fun s fd => closefd g fd s) s) i = group s i := by
  induction fds generalizing s G with
  | nil => exact ⟨h, rfl, G, hG, fun i => by simp, fun _ _ => rfl⟩
  | cons fd fds ih =>
    rw [foldl_cons]
    obtain ⟨hsane, henv, hgroup⟩ := closefd_spec fd h hG
    have hG₁ := hgroup g
    rw [if_pos rfl] at hG₁
    obtain ⟨hsane', henv', G', hG', hslots, hothers⟩ := ih hsane hG₁
    refine ⟨hsane', henv'.trans henv, G', hG', fun i => ?_, fun i hig => ?_⟩
    · rw [hslots, kclose_getD (h.group g G hG).1]
      simp only [mem_cons]
      split_ifs <;> first | rfl | (exfalso; tauto)
    · rw [hothers i hig, hgroup, if_neg hig]

/-- The loop of `NEWFD` has filled the slots, and taken the references. -/
structure Preserved (ofg nfg : Fgrp Chan) (ref : Chan → Nat) (fds : List Int) (o : Fgrp Chan × (Chan → Nat)) :
    Prop where
  ok : Within o.1
  nfd : o.1.nfd = nfg.nfd
  slot : ∀ i : Nat, nfg.fd.getD i none = none → i < nfg.nfd → (i : Int) ∈ fds → i ≤ ofg.maxfd →
    o.1.fd.getD i none = ofg.fd.getD i none
  other : ∀ i : Nat, ¬ (nfg.fd.getD i none = none ∧ i < nfg.nfd ∧ (i : Int) ∈ fds ∧ i ≤ ofg.maxfd) →
    o.1.fd.getD i none = nfg.fd.getD i none
  ref : ∀ c, o.2 c + nfg.fd.count (some c) = ref c + o.1.fd.count (some c)

theorem Preserved.skip {o : Fgrp Chan × (Chan → Nat)} (h : Preserved ofg nfg ref fds o)
    (hnone : ∀ i : Nat, (i : Int) = fd → nfg.fd.getD i none = none → i < nfg.nfd → i ≤ ofg.maxfd →
    ofg.fd.getD i none = none) :
    Preserved ofg nfg ref (fd :: fds) o := by
  refine ⟨h.ok, h.nfd, fun i hfree hlt hmem hmax => ?_, fun i hnot => ?_, h.ref⟩
  · by_cases hi : (i : Int) ∈ fds
    · exact h.slot i hfree hlt hi hmax
    · have hfd : (i : Int) = fd := (mem_cons.1 hmem).resolve_right hi
      rw [h.other i fun hin => hi hin.2.2.1, hfree, hnone i hfd hfree hlt hmax]
  · exact h.other i fun hin => hnot ⟨hin.1, hin.2.1, mem_cons_of_mem _ hin.2.2.1, hin.2.2.2⟩

variable (ofg ref fds) in
theorem preserve_spec (hok : Within nfg) : Preserved ofg nfg ref fds (preserve ofg nfg ref fds) := by
  induction fds generalizing nfg ref with
  | nil => exact ⟨hok, rfl, fun i _ _ hmem => absurd hmem not_mem_nil, fun _ _ => rfl, fun c => rfl⟩
  | cons fd fds ih =>
    unfold preserve
    split
    case isFalse hout => exact (ih _ hok).skip fun i hi _ _ hmax => absurd ⟨by omega, by omega⟩ hout
    case isTrue hin =>
      split
      case h_2 hnone =>
        refine (ih _ hok).skip fun i hi _ _ _ => ?_
        rw [← hnone]
        congr 1
        omega
      case h_1 c hc =>
        split
        case isFalse hused =>
          refine (ih _ hok).skip fun i hi hfree hlt _ => absurd ⟨?_, ?_⟩ hused
          · omega
          · rw [← hfree]
            congr 1
            omega
        case isTrue hfree =>
          have hlt : fd.toNat < nfg.fd.length := hfree.1
          have hused : Within ({ nfg with
              fd := nfg.fd.set fd.toNat (some c)
              maxfd := if nfg.maxfd < fd.toNat then fd.toNat else nfg.maxfd }) := hok.use hfree.1 rfl
          have hrest : Preserved ofg _ (incref ref c) fds (preserve ofg _ (incref ref c) fds) := ih _ hused
          have hcount : ∀ d, (nfg.fd.set fd.toNat (some c)).count (some d) =
              nfg.fd.count (some d) + if c = d then 1 else 0 := by
            intro d
            have hget : nfg.fd[fd.toNat]? = some none := by
              have hnone := hfree.2
              rw [getD_eq_getElem?_getD, List.getElem?_eq_getElem hlt, getD_some] at hnone
              rw [List.getElem?_eq_getElem hlt, hnone]
            have hset := count_set (x := some c) (c := d) hget
            simpa using hset
          have hn : (nfg.fd.set fd.toNat (some c)).length = nfg.nfd := length_set
          have hset : ∀ i : Nat, (nfg.fd.set fd.toNat (some c)).getD i none =
              if i = fd.toNat then some c else nfg.fd.getD i none := fun i => getD_set hlt
          refine ⟨hrest.ok, hrest.nfd.trans hn, fun i hnone hi hmem hmax => ?_, fun i hnot => ?_, fun d => ?_⟩
          · by_cases hifd : i = fd.toNat
            · have hkeep := hrest.other i (fun hin => by
                have hused := (hset i).symm.trans hin.1
                rw [if_pos hifd] at hused
                cases hused)
              rw [hkeep, hset, if_pos hifd, hifd, hc]
            have hmem' : (i : Int) ∈ fds := by
              rcases mem_cons.1 hmem with heq | hmem
              · exact absurd (by omega) hifd
              · exact hmem
            refine hrest.slot i ?_ (hi.trans_eq hn.symm) hmem' hmax
            rw [hset, if_neg hifd]
            exact hnone
          · have hifd : i ≠ fd.toNat := by
              rintro rfl
              exact hnot ⟨hfree.2, hlt, by simp [Int.toNat_of_nonneg hin.1], by omega⟩
            have hkeep := hrest.other i (fun hin => hnot ⟨?_, hin.2.1.trans_eq hn, mem_cons_of_mem _ hin.2.2.1,
              hin.2.2.2⟩)
            · rw [hkeep, hset, if_neg hifd]
            · have hfree' := (hset i).symm.trans hin.1
              rwa [if_neg hifd] at hfree'
          · have hr := hrest.ref d
            dsimp only at hr
            rw [hcount, incref_apply] at hr
            simp only [eq_comm (a := c)] at hr
            omega

/-! ### The caller gets a group -/

theorem Sane.lt (h : Sane s w) (hi : i ∈ s.env) : i < s.fgrp.length := by
  obtain ⟨G, hG⟩ := h.env i hi
  exact (group_lt hG).1

theorem Sound.append {r : Chan → Nat} (h : Sound s) (hok : Within f) (hr : ∀ c, r c = s.ref c + f.fd.count (some c)) :
    Sane { s with fgrp := s.fgrp ++ [some ⟨f, 1⟩], ref := r } fun i => s.env.count i + if i = s.fgrp.length then 1
    else 0 := by
  have hgroup : ∀ i, Pctl.group { s with fgrp := s.fgrp ++ [some ⟨f, 1⟩], ref := r } i =
      if i = s.fgrp.length then some ⟨f, 1⟩ else Pctl.group s i := fun i => group_append
  refine ⟨fun i hi => ?_, fun i G hG => ?_, fun c => ?_⟩
  · rw [hgroup, if_neg (h.sane.lt hi).ne]
    exact h.env i hi
  · rw [hgroup] at hG
    by_cases hin : i = s.fgrp.length
    · rw [if_pos hin] at hG
      cases hG
      have hnot : s.env.count i = 0 := count_eq_zero.2 fun hi => (h.sane.lt hi).ne hin
      refine ⟨hok, ?_, Nat.one_pos⟩
      dsimp only
      rw [hnot, if_pos hin]
    · rw [if_neg hin] at hG
      obtain ⟨hok', hr', hpos⟩ := h.group i G hG
      refine ⟨hok', ?_, hpos⟩
      rw [if_neg hin]
      exact hr'
  · have hslots : slots { s with fgrp := s.fgrp ++ [some ⟨f, 1⟩], ref := r } c = slots s c + f.fd.count (some c) :=
      slots_append
    rw [hslots]
    dsimp only
    rw [hr, h.ref]

/-- `o->fgrp = n; closefgrp(ofg);` -/
theorem Sane.switch {n : Nat} (h : Sane s w) (hw : ∀ i,
    w i = s.env.count i + if i = n then 1 else 0) (hp : s.env[p]? = some g)
    (hn : ∃ G, Pctl.group s n = some G) :
    Sound (Pctl.closefgrp g { s with env := s.env.set p n }) ∧
      ∀ q i, desc (Pctl.closefgrp g { s with env := s.env.set p n }) q i =
        desc { s with env := s.env.set p n } q i := by
  obtain ⟨hlt, hget⟩ := List.getElem?_eq_some_iff.1 hp
  have hsane : Sane { s with env := s.env.set p n } w := by
    refine ⟨fun i hi => ?_, h.group, h.ref⟩
    rcases mem_or_eq_of_mem_set hi with hi | rfl
    · exact h.env i hi
    · exact hn
  have hclose := hsane.closefgrp (g := g) (h.env g (mem_of_getElem? hp)) fun i => by
    have hcount := List.count_set (a := n) (b := i) hlt
    have hpos : s.env[p] = i → 0 < s.env.count i := by
      rintro rfl
      exact count_pos_iff.2 (getElem_mem hlt)
    simp only [hget, beq_iff_eq, eq_comm (a := i)] at hcount hpos ⊢
    rw [hw, hcount]
    split_ifs <;> omega
  exact ⟨hclose.1, hclose.2.2⟩

omit [DecidableEq Chan] in
theorem desc_eq (hp : s.env[p]? = some g) : desc s p i = (group s g).bind fun G => G.f.fd.getD i none := by
  unfold desc
  rw [hp]
  rfl

omit [DecidableEq Chan] in
theorem desc_set {n q : Nat} (hq : q ≠ p) : desc { s with env := s.env.set p n } q i = desc s q i := by
  unfold desc
  dsimp only
  rw [List.getElem?_set_ne (Ne.symm hq)]
  rfl

omit [DecidableEq Chan] in
theorem desc_congr (henv : s'.env = s.env) (hgroup : ∀ g, s.env[p]? = some g → group s' g = group s g) :
    desc s' p i = desc s p i := by
  unfold desc
  rw [henv]
  cases hp : s.env[p]? with
  | none => rfl
  | some g =>
    rw [bind_some, hgroup g hp]
    rfl

omit [DecidableEq Chan] in
theorem getD_newfgrp : (newfgrp (some f)).fd.getD i none = none := by
  show (List.replicate _ none).getD i none = none
  rw [getD_eq_getElem?_getD, List.getElem?_replicate]
  split <;> rfl

omit [DecidableEq Chan] in
theorem within_newfgrp : Within (newfgrp (some f)) := by
  refine ⟨fun j hj => absurd getD_newfgrp hj, ?_⟩
  show f.maxfd < (List.replicate _ none).length
  rw [length_replicate]
  exact lt_roundfd _

theorem getD_preserve (h : Within ofg) :
    (preserve ofg (newfgrp (some ofg)) ref fds).1.fd.getD i none = if (i : Int) ∈ fds then ofg.fd.getD i none
    else none := by
  have hspec := preserve_spec ofg ref fds (within_newfgrp (f := ofg))
  have hnfd : (newfgrp (some ofg)).nfd = roundfd ofg.maxfd := length_replicate
  split
  · next hmem =>
    by_cases hmax : i ≤ ofg.maxfd
    · exact hspec.slot i getD_newfgrp (hnfd ▸ hmax.trans_lt (lt_roundfd _)) hmem hmax
    · rw [hspec.other i fun hin => hmax hin.2.2.2, getD_newfgrp]
      by_contra huse
      exact hmax (h.max i (Ne.symm huse))
  · next hmem => rw [hspec.other i fun hin => hmem hin.2.2.1, getD_newfgrp]

/-- What holds of the caller's descriptors, and those of the others. -/
structure Moved (p : Nat) (caller others : Nat → Option Chan → Option Chan) (s s' : St Chan) : Prop where
  sound : Sound s'
  caller : ∀ i, desc s' p i = caller i (desc s p i)
  sharer : ∀ q i, q ≠ p → s.env[q]? = s.env[p]? → desc s' q i = others i (desc s q i)
  other : ∀ q i, q ≠ p → s.env[q]? ≠ s.env[p]? → desc s' q i = desc s q i

theorem newFd_spec (h : Sound s) (hs : newFd p fds mem s = some s') :
    Moved p (fun i x => if (i : Int) ∈ fds then x else none) (fun _ x => x) s s' := by
  unfold newFd at hs
  split at hs
  · cases hs
  next g hp =>
  split at hs
  · cases hs
  next ofg r hG =>
  split at hs
  · cases hs
  dsimp only at hs
  cases hs
  have hwithin := (h.group g _ hG).1
  have hspec := preserve_spec ofg s.ref fds (within_newfgrp (f := ofg))
  have hsane := h.append (r := (preserve ofg (newfgrp (some ofg)) s.ref fds).2) hspec.ok fun c => by
    have hnone : (newfgrp (some ofg)).fd.count (some c) = 0 := by
      show (List.replicate _ none).count (some c) = 0
      rw [count_replicate]
      rfl
    have hr := hspec.ref c
    omega
  have hgroup := fun i => group_append (s := s) (x := ⟨(preserve ofg (newfgrp (some ofg)) s.ref fds).1, 1⟩) (i := i)
  obtain ⟨hsound, hdesc⟩ := hsane.switch (fun i => rfl) hp ⟨_, (hgroup _).trans (if_pos rfl)⟩
  have hothers : ∀ q i, q ≠ p → desc (closefgrp g _) q i = desc s q i := fun q i hq => by
    rw [hdesc, desc_set hq]
    refine desc_congr rfl fun e he => (hgroup e).trans (if_neg ?_)
    exact (h.sane.lt (mem_of_getElem? he)).ne
  refine ⟨hsound, fun i => ?_, fun q i hq _ => hothers q i hq, fun q i hq _ => hothers q i hq⟩
  rw [hdesc, desc_eq (List.getElem?_set_self (List.getElem?_eq_some_iff.1 hp).1), desc_eq hp, hG]
  refine (congrArg (bind · fun G => G.f.fd.getD i none) ((hgroup _).trans (if_pos rfl))).trans ?_
  exact getD_preserve hwithin

theorem forkFd_spec (h : Sound s) (hs : forkFd p fds mem s = some s') :
    Moved p (fun _ x => x) (fun i x => if (i : Int) ∈ fds then none else x) s s' := by
  unfold forkFd at hs
  split at hs
  · cases hs
  next g hp =>
  split at hs
  · cases hs
  next ofg r hG =>
  split at hs
  · cases hs
  dsimp only at hs
  cases hs
  have hwithin := (h.group g _ hG).1
  have hcopy : ∀ c, (dupfgrp ofg).fd.count (some c) = ofg.fd.count (some c) := fun c => by
    show (ofg.fd.take (ofg.maxfd + 1) ++ List.replicate _ none).count (some c) = _
    rw [count_append, count_replicate, count_take hwithin]
    rfl
  have hsane := h.append (r := increfs (ofg.fd.take (ofg.maxfd + 1)) s.ref) hwithin.dupfgrp fun c => by
    rw [increfs_apply, count_take hwithin, hcopy]
  have hgroup := fun i => group_append (s := s) (x := ⟨dupfgrp ofg, 1⟩) (i := i)
  have hgn : g ≠ s.fgrp.length := (h.sane.lt (mem_of_getElem? hp)).ne
  obtain ⟨hclosed, henv, ⟨f', r'⟩, hG', hslots, hkept⟩ := closefds_spec hsane (((hgroup g).trans (if_neg hgn)).trans hG)
  have hnew := (hkept _ hgn.symm).trans ((hgroup _).trans (if_pos rfl))
  have hp' := (congrArg (·[p]?) henv).trans hp
  obtain ⟨hsound, hdesc⟩ := hclosed.switch (fun i => by rw [henv]) hp' ⟨_, hnew⟩
  refine ⟨hsound, fun i => ?_, fun q i hq hqp => ?_, fun q i hq hqp => ?_⟩
  · rw [hdesc, desc_eq (List.getElem?_set_self (List.getElem?_eq_some_iff.1 hp').1), desc_eq hp, hG]
    refine (congrArg (bind · fun G => G.f.fd.getD i none) hnew).trans ?_
    exact hwithin.getD_dupfgrp
  · have hqg : s.env[q]? = some g := hqp.trans hp
    rw [hdesc, desc_set hq, desc_eq ((congrArg (·[q]?) henv).trans hqg), desc_eq hqg, hG, hG']
    exact hslots i
  · rw [hdesc, desc_set hq]
    refine desc_congr henv fun e he => ?_
    have heg : e ≠ g := fun heq => hqp (he.trans ((congrArg some heq).trans hp.symm))
    exact (hkept e heg).trans ((hgroup e).trans (if_neg (h.sane.lt (mem_of_getElem? he)).ne))

variable (fds) in
theorem pctl_eq_none (h : Sound s) (hp : p < s.env.length) :
    pctl p flags fds mem s = none ↔ mem = false ∧ (flags.newfd = true ∨ flags.forkfd = true) := by
  obtain ⟨⟨f, r⟩, hG⟩ := h.env _ (getElem_mem hp)
  have hget : s.env[p]? = some s.env[p] := List.getElem?_eq_getElem hp
  have hnew : newFd p fds mem s = none ↔ mem = false := by
    unfold newFd
    rw [hget]
    dsimp only
    rw [hG]
    cases mem <;> simp
  have hfork : forkFd p fds mem s = none ↔ mem = false := by
    unfold forkFd
    rw [hget]
    dsimp only
    rw [hG]
    cases mem <;> simp
  unfold pctl
  cases hf : flags.newfd with
  | true =>
    rw [if_pos rfl, hnew]
    simp
  | false =>
    rw [if_neg Bool.false_ne_true]
    cases hf' : flags.forkfd with
    | true =>
      rw [if_pos rfl, hfork]
      simp
    | false => simp

theorem sound_pctl (h : Sound s) (hs : pctl p flags fds mem s = some s') : Sound s' := by
  unfold pctl at hs
  split at hs
  · exact (newFd_spec h hs).sound
  · split at hs
    · exact (forkFd_spec h hs).sound
    · cases hs
      exact h

theorem controlled_forkFd (h : Sound s) (hn : flags.newfd = false) (hf : flags.forkfd = true)
    (hs : forkFd p fds mem s = some s') :
    Controlled p flags fds s s' ↔ ∀ i : Nat, (i : Int) ∈ fds → desc s p i = none := by
  obtain ⟨hsound, hcaller, hsharer, hother⟩ := forkFd_spec h hs
  have hwanted : ∀ (i : Nat) (x : Option Chan), wanted flags fds i x = if (i : Int) ∈ fds then none else x :=
    fun i x => by
    unfold wanted
    rw [hn, if_neg Bool.false_ne_true, if_pos hf]
  constructor
  · intro hctl i hmem
    rw [← hcaller i, hctl.caller, hwanted, if_pos hmem]
  intro hnone
  refine ⟨fun i => ?_, fun q hq i => ?_, hsound.ref⟩
  · rw [hcaller, hwanted]
    split
    · next hmem => exact hnone i hmem
    · rfl
  by_cases hqp : s.env[q]? = s.env[p]?
  · have hsame : desc s q i = desc s p i := by
      unfold desc
      rw [hqp]
    rw [hsharer q i hq hqp]
    split
    · next hmem => rw [hsame, hnone i hmem]
    · rfl
  · exact hother q i hq hqp

/-- The counts are right in all cases, and `NEWFD` is. -/
theorem controlled_iff (h : Sound s) (hp : p < s.env.length) :
    (pctl p flags fds mem s = none ↔ mem = false ∧ (flags.newfd = true ∨ flags.forkfd = true)) ∧
      (∀ s', pctl p flags fds mem s = some s' → Sound s') ∧
      ((∀ s', pctl p flags fds mem s = some s' → Controlled p flags fds s s') ↔
        (flags.newfd = false → flags.forkfd = true → mem = true → ∀ i : Nat, (i : Int) ∈ fds → desc s p i = none)) := by
  refine ⟨pctl_eq_none _ h hp, fun s' hs => sound_pctl h hs, ?_⟩
  constructor
  · intro hctl hn hf hmem
    cases hs : pctl p flags fds mem s with
    | none =>
      have hmem' := ((pctl_eq_none _ h hp).1 hs).1
      rw [hmem] at hmem'
      cases hmem'
    | some s' =>
      have hfork := hs
      unfold pctl at hfork
      rw [hn, if_neg Bool.false_ne_true, if_pos hf] at hfork
      exact (controlled_forkFd h hn hf hfork).1 (hctl s' hs)
  · intro hnone s' hs
    have hmem : (flags.newfd = true ∨ flags.forkfd = true) → mem = true := fun hflag => by
      by_contra hmem
      have hno := (pctl_eq_none fds h hp).2 ⟨Bool.eq_false_iff.2 hmem, hflag⟩
      rw [hs] at hno
      cases hno
    have hpctl := hs
    unfold pctl at hpctl
    split at hpctl
    · next hn =>
      obtain ⟨hsound, hcaller, hsharer, hother⟩ := newFd_spec h hpctl
      refine ⟨fun i => ?_, fun q hq i => ?_, hsound.ref⟩
      · unfold wanted
        rw [hcaller, if_pos hn]
      · by_cases hqp : s.env[q]? = s.env[p]?
        · exact hsharer q i hq hqp
        · exact hother q i hq hqp
    · next hn =>
      split at hpctl
      · next hf =>
        have hn := Bool.eq_false_iff.2 hn
        exact (controlled_forkFd h hn hf hpctl).2 (hnone hn hf (hmem (.inr hf)))
      · next hf =>
        cases hpctl
        refine ⟨fun i => ?_, fun _ _ _ => rfl, h.ref⟩
        unfold wanted
        rw [if_neg hn, if_neg hf]

/-- Two processes share a group with one descriptor. -/
def shared : St Nat :=
  ⟨[some ⟨⟨some 7 :: List.replicate 19 none, 0, 1⟩, 2⟩], [0, 0], fun c => if c = 7 then 1 else 0⟩

theorem sound_shared : Sound shared := by
  refine ⟨fun g hg => ?_, fun g G hG => ?_, fun c => ?_⟩
  · have hg : g = 0 := by simpa [shared] using hg
    rw [hg]
    exact ⟨_, rfl⟩
  · cases g with
    | succ g => cases hG
    | zero =>
      cases hG
      refine ⟨⟨fun i hi => ?_, by decide⟩, rfl, by decide⟩
      cases i with
      | zero => exact le_refl 0
      | succ i =>
        refine absurd ?_ hi
        show (List.replicate 19 none).getD i none = none
        rw [getD_eq_getElem?_getD, List.getElem?_replicate]
        split <;> rfl
  · show (if c = 7 then 1 else 0) = (some 7 :: List.replicate 19 none).count (some c) + 0
    have hnone : (List.replicate 19 (none : Option Nat)).count (some c) = 0 := count_eq_zero.2 fun hmem =>
      absurd (eq_of_mem_replicate hmem) (some_ne_none c)
    rw [List.count_cons, hnone]
    by_cases hc : c = 7
    · rw [if_pos hc, hc]
      rfl
    · rw [if_neg hc, if_neg]
      simpa using Ne.symm hc

theorem controlled_iff_shared :
    ¬ ∀ s', pctl 0 ⟨false, true⟩ [0] true shared = some s' → Controlled 0 ⟨false, true⟩ [0] shared s' := by
  intro hctl
  have hnone := (controlled_iff sound_shared (by decide)).2.2.1 hctl rfl rfl rfl 0 (by decide)
  cases hnone

/-- The other process loses the descriptor, and the caller has it. -/
theorem forkFd_shared : Sound shared ∧ ∃ s', pctl 0 ⟨false, true⟩ [0] true shared = some s' ∧
    desc s' 1 0 ≠ desc shared 1 0 ∧ desc s' 0 0 = some 7 ∧ ¬ Controlled 0 ⟨false, true⟩ [0] shared s' := by
  refine ⟨sound_shared, _, rfl, by decide, by decide, fun hctl => ?_⟩
  exact absurd (hctl.others 1 (by decide) 0) (by decide)

end Node9.Pctl
