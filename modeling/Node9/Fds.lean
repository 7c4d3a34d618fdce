import Node9.Lib.Steps

/-!
# File descriptor tables (`sysfile.c`, `pgrp.c`)

A group has a table of `nfd` slots, where `none` is an unused one, and two hints: no descriptor in use is above
`maxfd`, and none below `minfd` is unused. A channel is whatever it is. `mem` says whether there is memory.

The error path of `kpipe` clears its first slot without the hints. It is taken when the second descriptor is
refused (`Room`).
-/

namespace Node9.Fds
open Steps List Option

def DELTAFD : Nat := 20

def MAXNFD : Nat := 4000

structure Fgrp (Chan : Type) where
  fd : List (Option Chan)
  maxfd : Nat
  minfd : Nat

variable {Chan : Type}

def Fgrp.nfd (f : Fgrp Chan) : Nat := f.fd.length

def growfd (f : Fgrp Chan) (fd : Nat) (mem : Bool) : Option (Fgrp Chan) :=
  if fd < f.nfd then some f
  else
    let n := min (f.nfd + DELTAFD) MAXNFD
    if fd ≥ n then none
    else if mem = false then none
    else some { f with fd := f.fd ++ List.replicate (n - f.nfd) none }

/-- The first unused slot from `minfd` on, or the end of the table. -/
def Fgrp.unused (f : Fgrp Chan) : Nat := f.minfd + (f.fd.drop f.minfd).findIdx isNone

def newfd (f : Fgrp Chan) (c : Chan) (mem : Bool) : Option (Nat × Fgrp Chan) :=
  let i := f.unused
  match if i ≥ f.nfd then growfd f i mem else some f with
  | none => none
  | some f => some (i, ⟨f.fd.set i (some c), if i > f.maxfd then i else f.maxfd, i + 1⟩)

/-- `for(i=fd; --i>=0 && f->fd[i]==0; ) f->maxfd = i;` -/
def lower (fd : List (Option Chan)) : Nat → Nat → Nat
  | 0, maxfd => maxfd
  | i + 1, maxfd => if (fd.getD i none).isNone then lower fd i i else maxfd

def fdclose (f : Fgrp Chan) (fd : Nat) : Fgrp Chan :=
  match f.fd.getD fd none with
  | none => f
  | some _ =>
    let tab := f.fd.set fd none
    ⟨tab, if fd = f.maxfd then lower tab fd f.maxfd else f.maxfd, if fd < f.minfd then fd else f.minfd⟩

/-- `fdtochan` for any mode. -/
def fdtochan (f : Fgrp Chan) (fd : Int) : Option Chan :=
  if fd < 0 ∨ f.maxfd < fd then none else f.fd.getD fd.toNat none

def kclose (f : Fgrp Chan) (fd : Int) : Fgrp Chan :=
  match fdtochan f fd with
  | none => f
  | some _ => fdclose f fd.toNat

def kdup (f : Fgrp Chan) (old new : Int) (mem : Bool) : Fgrp Chan :=
  match fdtochan f old with
  | none => f
  | some c =>
    if new ≠ -1 then
      if new < 0 then f
      else
        match growfd f new.toNat mem with
        | none => f
        | some f =>
          { f with
            maxfd := if new.toNat > f.maxfd then new.toNat else f.maxfd
            fd := f.fd.set new.toNat (some c) }
    else
      match newfd f c mem with
      | none => f
      | some (_, f) => f

/-- From the first `newfd` on. -/
def kpipe (f : Fgrp Chan) (c c' : Chan) (mem mem' : Bool) : Fgrp Chan :=
  match newfd f c mem with
  | none => f
  | some (fd, f) =>
    match newfd f c' mem' with
    | none => { f with fd := f.fd.set fd none }
    | some (_, f) => f

def roundfd (maxfd : Nat) : Nat :=
  if maxfd ≥ DELTAFD then (maxfd + 1 + DELTAFD - 1) / DELTAFD * DELTAFD else DELTAFD

def newfgrp : Option (Fgrp Chan) → Fgrp Chan
  | none => ⟨List.replicate DELTAFD none, 0, 0⟩
  | some old => ⟨List.replicate (roundfd old.maxfd) none, old.maxfd, 0⟩

/-- The loop over the descriptors that a new group keeps (`Sys_NEWFD` in `node9.c`). -/
def movefd (ofg nfg : Fgrp Chan) : List Int → Fgrp Chan
  | [] => nfg
  | fd :: fds =>
    if 0 ≤ fd ∧ fd ≤ ofg.maxfd then
      match ofg.fd.getD fd.toNat none with
      | some c =>
        if fd.toNat < nfg.nfd ∧ nfg.fd.getD fd.toNat none = none then
          movefd ofg
            { nfg with
              fd := nfg.fd.set fd.toNat (some c)
              maxfd := if nfg.maxfd < fd.toNat then fd.toNat else nfg.maxfd }
            fds
        else movefd ofg nfg fds
      | none => movefd ofg nfg fds
    else movefd ofg nfg fds

def dupfgrp (f : Fgrp Chan) : Fgrp Chan :=
  let fds := f.fd.take (f.maxfd + 1)
  ⟨fds ++ List.replicate (roundfd f.maxfd - fds.length) none, f.maxfd, f.minfd⟩

/-! ### What should hold -/

def Fgrp.InUse (f : Fgrp Chan) (i : Nat) : Prop := f.fd.getD i none ≠ none

structure Hints (f : Fgrp Chan) : Prop where
  max : ∀ i, f.InUse i → i ≤ f.maxfd
  maxfd : f.maxfd < f.nfd
  min : ∀ i < f.minfd, f.InUse i

/-- `newfd` returns the least unused descriptor, and is refused when all are in use. -/
def Least (f : Fgrp Chan) : Prop :=
  ∀ c mem, match newfd f c mem with
    | some (i, _) => ¬ f.InUse i ∧ (∀ j < i, f.InUse j) ∧ i < MAXNFD
    | none => mem = false ∨ ∀ i < MAXNFD, f.InUse i

/-- The steps of a system with some groups. A new group comes to the end of the list. -/
inductive Act (Chan : Type)
  /-- `kopen`, `kcreate` and all that call `newfd` once -/
  | open (g : Nat) (c : Chan) (mem : Bool)
  | pipe (g : Nat) (c c' : Chan) (mem mem' : Bool)
  | dup (g : Nat) (old new : Int) (mem : Bool)
  | close (g : Nat) (fd : Int)
  | newfgrp
  | copyfd (g : Nat) (fds : List Int)
  | dupfgrp (g : Nat)

/-- `none` if there is no such group. -/
def step (s : List (Fgrp Chan)) : Act Chan → Option (List (Fgrp Chan))
  | .open g c mem => s[g]?.map fun f =>
    match newfd f c mem with
    | none => s
    | some (_, f) => s.set g f
  | .pipe g c c' mem mem' => s[g]?.map fun f => s.set g (kpipe f c c' mem mem')
  | .dup g old new mem => s[g]?.map fun f => s.set g (kdup f old new mem)
  | .close g fd => s[g]?.map fun f => s.set g (kclose f fd)
  | .newfgrp => some (s ++ [newfgrp none])
  | .copyfd g fds => s[g]?.map fun f => s ++ [movefd f (newfgrp (some f)) fds]
  | .dupfgrp g => s[g]?.map fun f => s ++ [dupfgrp f]

def OneLeft (f : Fgrp Chan) : Prop := ∃ i < f.nfd, ∀ j < f.nfd, f.InUse j ↔ j ≠ i

/-- There is not just one descriptor left for the two of a pipe. -/
def Room (s : List (Fgrp Chan)) : Act Chan → Prop
  | .pipe g _ _ _ mem' => ∀ f ∈ s[g]?, OneLeft f → f.nfd < MAXNFD ∧ mem' = true
  | _ => True

def Safe (s : List (Fgrp Chan)) : Prop := ∀ f ∈ s, Hints f ∧ Least f

/-- No descriptor in use is above `maxfd`. -/
structure Within (f : Fgrp Chan) : Prop where
  max : ∀ i, f.InUse i → i ≤ f.maxfd
  maxfd : f.maxfd < f.nfd

theorem Hints.within {f : Fgrp Chan} (h : Hints f) : Within f := ⟨h.max, h.maxfd⟩

structure Ok (f : Fgrp Chan) : Prop extends Hints f where
  nfd : f.nfd ≤ MAXNFD
  quantum : DELTAFD ∣ f.nfd

section
variable {f f' : Fgrp Chan} {c : Chan} {mem : Bool} {i j k fd : Nat} {tab : List (Option Chan)}

theorem Fgrp.InUse.lt (h : f.InUse i) : i < f.nfd := by
  by_contra hge
  exact h (by rw [getD_eq_getElem?_getD, List.getElem?_eq_none (le_of_not_gt hge)]; rfl)

theorem getD_set {x : Option Chan} (hi : i < tab.length) : (tab.set i x).getD j none = if j = i then x
    else tab.getD j none := by
  rw [getD_eq_getElem?_getD, getD_eq_getElem?_getD, List.getElem?_set]
  by_cases h : i = j
  · rw [if_pos h, if_pos hi, if_pos h.symm]
    rfl
  · rw [if_neg h, if_neg (Ne.symm h)]

theorem getD_grown : (tab ++ List.replicate k none).getD j none = tab.getD j none := by
  rw [getD_eq_getElem?_getD, getD_eq_getElem?_getD]
  by_cases hj : j < tab.length
  · rw [List.getElem?_append_left hj]
  · rw [List.getElem?_append_right (le_of_not_gt hj), List.getElem?_eq_none (le_of_not_gt hj),
      List.getElem?_replicate]
    split <;> rfl

theorem Ok.minfd_le (h : Ok f) : f.minfd ≤ f.nfd := by
  by_contra hlt
  exact absurd (h.min f.nfd (by omega)).lt (lt_irrefl _)

theorem Ok.unused (h : Ok f) : f.unused ≤ f.nfd ∧ ¬ f.InUse f.unused ∧ ∀ j < f.unused, f.InUse j := by
  have hmin := h.minfd_le
  unfold Fgrp.unused Fgrp.nfd at *
  refine ⟨?_, ?_, fun j hj => ?_⟩
  · have hle : (f.fd.drop f.minfd).findIdx isNone ≤ (f.fd.drop f.minfd).length := findIdx_le_length
    rw [length_drop] at hle
    omega
  · unfold Fgrp.InUse
    rw [not_not, getD_eq_getElem?_getD, ← List.getElem?_drop]
    by_cases hlt : (f.fd.drop f.minfd).findIdx isNone < (f.fd.drop f.minfd).length
    · have hnone := findIdx_getElem (w := hlt)
      rw [List.getElem?_eq_getElem hlt]
      exact isNone_iff_eq_none.1 hnone
    · rw [List.getElem?_eq_none (le_of_not_gt hlt)]
      rfl
  by_cases hj' : j < f.minfd
  · exact h.min j hj'
  have hlt : j - f.minfd < (f.fd.drop f.minfd).findIdx isNone := by omega
  have hnot := not_of_lt_findIdx hlt
  have hget : (f.fd.drop f.minfd)[j - f.minfd]? = f.fd[j]? := by
    rw [List.getElem?_drop]
    congr 1
    omega
  have hlen := lt_of_lt_of_le hlt findIdx_le_length
  unfold Fgrp.InUse
  rw [getD_eq_getElem?_getD, ← hget, List.getElem?_eq_getElem hlen]
  simpa [isSome_iff_ne_none] using hnot

theorem Ok.growfd (h : Ok f) (hg : growfd f fd mem = some f') :
    Ok f' ∧ fd < f'.nfd ∧ (∀ j, f'.InUse j ↔ f.InUse j) ∧ f'.maxfd = f.maxfd ∧ f'.minfd = f.minfd ∧
      (f'.nfd = f.nfd ∨ f.nfd + DELTAFD = f'.nfd) := by
  unfold Fds.growfd at hg
  dsimp only at hg
  split at hg
  · next hlt =>
    cases hg
    exact ⟨h, hlt, fun _ => Iff.rfl, rfl, rfl, .inl rfl⟩
  next hge =>
  split at hg
  · cases hg
  next hn =>
  split at hg
  · cases hg
  cases hg
  obtain ⟨q, hq⟩ := h.quantum
  have hle := h.nfd
  have hfd : fd < min (f.nfd + DELTAFD) MAXNFD := lt_of_not_ge hn
  have hmax := h.maxfd
  have hlen : (f.fd ++ List.replicate (min (f.nfd + DELTAFD) MAXNFD - f.nfd) none).length = f.nfd + DELTAFD := by
    rw [length_append, length_replicate]
    unfold Fgrp.nfd DELTAFD MAXNFD at *
    omega
  have huse : ∀ j, (f.fd ++ List.replicate (min (f.nfd + DELTAFD) MAXNFD - f.nfd) none).getD j none =
    f.fd.getD j none :=
    fun j => getD_grown
  refine ⟨⟨⟨fun j hj => h.max j ?_, ?_, fun j hj => ?_⟩, ?_, ?_⟩, ?_, fun j => ?_, rfl, rfl, .inr hlen.symm⟩
  · unfold Fgrp.InUse at hj ⊢
    rwa [← huse]
  · show f.maxfd < List.length _
    rw [hlen]
    omega
  · have hj := h.min j hj
    unfold Fgrp.InUse at hj ⊢
    rwa [huse]
  · show List.length _ ≤ MAXNFD
    rw [hlen]
    unfold DELTAFD MAXNFD at *
    omega
  · show DELTAFD ∣ List.length _
    rw [hlen, hq]
    exact ⟨q + 1, rfl⟩
  · show fd < List.length _
    rw [hlen]
    omega
  · unfold Fgrp.InUse
    rw [huse]

theorem growfd_none (h : Ok f) (hg : growfd f f.nfd mem = none) : mem = false ∨ f.nfd = MAXNFD := by
  have hle := h.nfd
  unfold growfd at hg
  dsimp only at hg
  rw [if_neg (lt_irrefl _)] at hg
  split at hg
  · next hn =>
    unfold DELTAFD at hn
    omega
  · split at hg
    · next hmem => exact .inl hmem
    · cases hg

theorem Within.use {maxfd minfd : Nat} (h : Within f) (hi : i < f.nfd) (hmax : maxfd = if i > f.maxfd then i else f.maxfd) :
    Within ⟨f.fd.set i (some c), maxfd, minfd⟩ := by
  have hmaxfd := h.maxfd
  refine ⟨fun j hj => ?_, ?_⟩
  · unfold Fgrp.InUse at hj
    rw [getD_set hi] at hj
    subst hmax
    dsimp only
    by_cases hji : j = i
    · split <;> omega
    · rw [if_neg hji] at hj
      have := h.max j hj
      split <;> omega
  · show maxfd < List.length _
    rw [length_set, hmax]
    unfold Fgrp.nfd at *
    split <;> omega

theorem Ok.use {maxfd minfd : Nat} (h : Ok f) (hi : i < f.nfd) (hmax : maxfd = if i > f.maxfd then i else f.maxfd)
    (hmin : ∀ j < minfd, j = i ∨ f.InUse j) : Ok ⟨f.fd.set i (some c), maxfd, minfd⟩ := by
  have hlen : (f.fd.set i (some c)).length = f.nfd := length_set
  have hwithin : Within ⟨f.fd.set i (some c), maxfd, minfd⟩ := h.within.use hi hmax
  refine ⟨⟨hwithin.max, hwithin.maxfd, fun j hj => ?_⟩, ?_, ?_⟩
  · unfold Fgrp.InUse
    rw [getD_set hi]
    rcases hmin j hj with rfl | hj
    · rw [if_pos rfl]
      exact some_ne_none c
    · split
      · exact some_ne_none c
      · exact hj
  · show List.length _ ≤ MAXNFD
    rw [hlen]
    exact h.nfd
  · show DELTAFD ∣ List.length _
    rw [hlen]
    exact h.quantum

theorem inUse_use {maxfd minfd : Nat} (hi : i < f.nfd) :
    (⟨f.fd.set i (some c), maxfd, minfd⟩ : Fgrp Chan).InUse j ↔ j = i ∨ f.InUse j := by
  unfold Fgrp.InUse
  rw [getD_set hi]
  by_cases hji : j = i <;> simp [hji]

theorem Ok.newfd (h : Ok f) (hn : newfd f c mem = some (i, f')) :
    i = f.unused ∧ Ok f' ∧ (∀ j, f'.InUse j ↔ j = i ∨ f.InUse j) ∧ f'.minfd = i + 1 ∧ i < f'.nfd ∧
      (f'.nfd = f.nfd ∨ f.nfd + DELTAFD = f'.nfd ∧ i = f.nfd) := by
  obtain ⟨hle, hfree, hbelow⟩ := h.unused
  unfold Fds.newfd at hn
  dsimp only at hn
  split at hn
  · cases hn
  next g hg =>
  cases hn
  have hgrown : Ok g ∧ f.unused < g.nfd ∧ (∀ j, g.InUse j ↔ f.InUse j) ∧ g.maxfd = f.maxfd ∧
      (g.nfd = f.nfd ∨ f.nfd + DELTAFD = g.nfd ∧ f.unused = f.nfd) := by
    split at hg
    · next hge =>
      obtain ⟨hok, hlt, huse, hmax, -, hnfd⟩ := h.growfd hg
      exact ⟨hok, hlt, huse, hmax, hnfd.imp id fun h => ⟨h, by omega⟩⟩
    · next hlt =>
      cases hg
      exact ⟨h, by omega, fun _ => Iff.rfl, rfl, .inl rfl⟩
  obtain ⟨hok, hlt, huse, hmax, hnfd⟩ := hgrown
  refine ⟨rfl, hok.use hlt rfl fun j hj => ?_, fun j => ?_, rfl, ?_, ?_⟩
  · by_cases hj' : j = f.unused
    · exact .inl hj'
    · exact .inr ((huse j).2 (hbelow j (by omega)))
  · rw [inUse_use hlt, huse]
  · show f.unused < List.length _
    rw [length_set]
    exact hlt
  · show List.length _ = _ ∨ _ = List.length _ ∧ _
    rw [length_set]
    exact hnfd

theorem newfd_none (h : Ok f) (hn : newfd f c mem = none) : (mem = false ∨ f.nfd = MAXNFD) ∧ ∀ j < f.nfd,
    f.InUse j := by
  obtain ⟨hle, hfree, hbelow⟩ := h.unused
  unfold newfd at hn
  dsimp only at hn
  split at hn
  · next hg =>
    split at hg
    · next hge =>
      have heq : f.unused = f.nfd := by omega
      rw [heq] at hg hbelow
      exact ⟨growfd_none h hg, hbelow⟩
    · cases hg
  · cases hn

theorem Ok.least (h : Ok f) : Least f := by
  intro c mem
  split
  · next i f' hn =>
    obtain ⟨rfl, hok, -, -, hlt, -⟩ := h.newfd hn
    exact ⟨h.unused.2.1, h.unused.2.2, lt_of_lt_of_le hlt hok.nfd⟩
  · next hn =>
    obtain ⟨hwhy, huse⟩ := newfd_none h hn
    exact hwhy.imp id fun hfull i hi => huse i (by omega)

theorem lower_spec {maxfd : Nat} (h : ∀ j, tab.getD j none ≠ none → j < k) (hk : k ≤ maxfd) :
    (∀ j, tab.getD j none ≠ none → j ≤ lower tab k maxfd) ∧ lower tab k maxfd ≤ maxfd := by
  induction k generalizing maxfd with
  | zero => exact ⟨fun j hj => absurd (h j hj) (Nat.not_lt_zero j), le_refl _⟩
  | succ k ih =>
    simp only [lower]
    split
    · next hnone =>
      have hlt : ∀ j, tab.getD j none ≠ none → j < k := by
        intro j hj
        have hne : j ≠ k := by
          rintro rfl
          exact hj (isNone_iff_eq_none.1 hnone)
        have := h j hj
        omega
      obtain ⟨hle, hmax⟩ := ih hlt (le_refl k)
      exact ⟨hle, by omega⟩
    · exact ⟨fun j hj => by have := h j hj; omega, le_refl _⟩

theorem Within.fdclose (h : Within f) : Within (fdclose f fd) := by
  unfold Fds.fdclose
  split
  · exact h
  next c hc =>
  have hfd : fd < f.fd.length := Fgrp.InUse.lt (f := f) (by unfold Fgrp.InUse; rw [hc]; exact some_ne_none c)
  have huse : ∀ j, (f.fd.set fd none).getD j none ≠ none → j ≠ fd ∧ f.InUse j := by
    intro j hj
    rw [getD_set hfd] at hj
    split at hj
    · exact absurd rfl hj
    · next hne => exact ⟨hne, hj⟩
  have hbelow : fd = f.maxfd → ∀ j, (f.fd.set fd none).getD j none ≠ none → j < fd := by
    intro heq j hj
    obtain ⟨hne, hj⟩ := huse j hj
    have := h.max j hj
    omega
  dsimp only
  refine ⟨fun j hj => ?_, ?_⟩
  · dsimp only
    split
    · next heq => exact (lower_spec (hbelow heq) (le_of_eq heq)).1 j hj
    · exact h.max j (huse j hj).2
  · show (if _ then _ else _) < List.length _
    rw [length_set]
    split
    · next heq => exact lt_of_le_of_lt (lower_spec (hbelow heq) (le_of_eq heq)).2 h.maxfd
    · exact h.maxfd

theorem Ok.fdclose (h : Ok f) : Ok (fdclose f fd) := by
  have hwithin : Within (Fds.fdclose f fd) := h.within.fdclose
  unfold Fds.fdclose at hwithin ⊢
  split
  · exact h
  next c hc =>
  rw [hc] at hwithin
  have hfd : fd < f.fd.length := Fgrp.InUse.lt (f := f) (by unfold Fgrp.InUse; rw [hc]; exact some_ne_none c)
  have hlen : (f.fd.set fd none).length = f.nfd := length_set
  dsimp only
  refine ⟨⟨hwithin.max, hwithin.maxfd, fun j hj => ?_⟩, ?_, ?_⟩
  · have hj : j < if fd < f.minfd then fd else f.minfd := hj
    unfold Fgrp.InUse
    rw [getD_set hfd, if_neg (by split at hj <;> omega)]
    exact h.min j (by split at hj <;> omega)
  · show List.length _ ≤ MAXNFD
    rw [hlen]
    exact h.nfd
  · show DELTAFD ∣ List.length _
    rw [hlen]
    exact h.quantum

theorem Ok.kclose {fd : Int} (h : Ok f) : Ok (kclose f fd) := by
  unfold Fds.kclose
  split
  · exact h
  · exact h.fdclose

theorem Ok.kdup {old new : Int} (h : Ok f) : Ok (kdup f old new mem) := by
  unfold Fds.kdup
  split
  · exact h
  split
  · split
    · exact h
    split
    · exact h
    · next g hg =>
      obtain ⟨hok, hlt, huse, hmax, hmin, -⟩ := h.growfd hg
      exact hok.use hlt rfl fun j hj => .inr (hok.min j hj)
  · split
    · exact h
    · next hn => exact (h.newfd hn).2.1

theorem Ok.kpipe {c' : Chan} {mem' : Bool} (h : Ok f) (hroom : OneLeft f → f.nfd < MAXNFD ∧ mem' = true) :
    Ok (kpipe f c c' mem mem') := by
  unfold Fds.kpipe
  split
  · exact h
  next i f₁ hn =>
  obtain ⟨hi, hok, huse, -, hlt, hnfd⟩ := h.newfd hn
  split
  · next hn' =>
    obtain ⟨hwhy, hall⟩ := newfd_none hok hn'
    exfalso
    rcases hnfd with hsame | ⟨hgrow, hend⟩
    · have hone : OneLeft f := by
        refine ⟨i, hsame ▸ hlt, fun j hj => ⟨?_, fun hne => ?_⟩⟩
        · rintro hj rfl
          exact h.unused.2.1 (hi ▸ hj)
        · exact ((huse j).1 (hall j (hsame ▸ hj))).resolve_left hne
      obtain ⟨hroom, hmem⟩ := hroom hone
      rcases hwhy with hwhy | hwhy
      · simp [hmem] at hwhy
      · omega
    · have hnext := hall (f.nfd + 1) (by unfold DELTAFD at hgrow; omega)
      rcases (huse _).1 hnext with heq | hj
      · omega
      · have := hj.lt
        omega
  · next hn' => exact (hok.newfd hn').2.1

theorem kpipe_bad {c' : Chan} {mem' : Bool} (h : Ok f) (hone : OneLeft f) (hroom : ¬ (f.nfd < MAXNFD ∧ mem' = true)) :
    ¬ Hints (kpipe f c c' mem mem') := by
  obtain ⟨i, hi, hone⟩ := hone
  obtain ⟨hle, hfree, hbelow⟩ := h.unused
  have hui : f.unused = i := by
    by_contra hne
    have hlt : ¬ i < f.unused := fun hlt => (hone i hi).1 (hbelow i hlt) rfl
    exact hfree ((hone _ (by omega)).2 hne)
  cases hn : newfd f c mem with
  | none => exact absurd ((newfd_none h hn).2 i hi) fun hu => (hone i hi).1 hu rfl
  | some x =>
    obtain ⟨j, f₁⟩ := x
    obtain ⟨hj, hok, huse, hmin, hlt, hnfd⟩ := h.newfd hn
    have hsame : f₁.nfd = f.nfd := hnfd.resolve_right fun hr => by omega
    have hall : ∀ k < f₁.nfd, f₁.InUse k := by
      intro k hk
      by_cases hki : k = i
      · exact (huse k).2 (.inl (by omega))
      · exact (huse k).2 (.inr ((hone k (by omega)).2 hki))
    cases hn' : newfd f₁ c' mem' with
    | some y =>
      obtain ⟨k, f₂⟩ := y
      obtain ⟨hk, hok', -, -, hlt', hnfd'⟩ := hok.newfd hn'
      obtain ⟨hle', hfree', -⟩ := hok.unused
      have hend : f₁.unused = f₁.nfd := by
        by_contra hne
        exact hfree' (hall _ (by omega))
      -- the table would have grown
      have hgrew : f₁.nfd < MAXNFD ∧ mem' = true := by
        have hle₂ := hok'.nfd
        refine ⟨by omega, ?_⟩
        cases mem' with
        | true => rfl
        | false =>
          unfold newfd growfd at hn'
          dsimp only at hn'
          rw [hend, if_pos (le_refl _), if_neg (lt_irrefl _)] at hn'
          simp at hn'
      exact absurd ⟨hsame ▸ hgrew.1, hgrew.2⟩ hroom
    | none =>
      unfold kpipe
      simp only [hn, hn']
      intro hh
      refine hh.min j (by show j < f₁.minfd; rw [hmin]; exact Nat.lt_succ_self j) ?_
      show (f₁.fd.set j none).getD j none = none
      rw [getD_set hlt, if_pos rfl]

theorem roundfd_spec (h : Ok f) : f.maxfd < roundfd f.maxfd ∧ roundfd f.maxfd ≤ MAXNFD ∧ DELTAFD ∣ roundfd f.maxfd := by
  have hmax := h.maxfd
  obtain ⟨q, hq⟩ := h.quantum
  have hle := h.nfd
  unfold roundfd DELTAFD MAXNFD at *
  split
  · refine ⟨by omega, by omega, Nat.dvd_mul_left _ _⟩
  · exact ⟨by omega, by omega, Nat.dvd_refl _⟩

theorem ok_newfgrp : Ok (newfgrp (none : Option (Fgrp Chan))) := by
  refine ⟨⟨fun j hj => ?_, ?_, nofun⟩, ?_, ?_⟩
  · unfold Fgrp.InUse newfgrp at hj
    rw [getD_eq_getElem?_getD, List.getElem?_replicate] at hj
    split at hj <;> exact absurd rfl hj
  all_goals
    unfold Fgrp.nfd newfgrp
    simp [DELTAFD, MAXNFD]

theorem ok_newfgrp_some (h : Ok f) : Ok (newfgrp (some f)) := by
  obtain ⟨hlt, hle, hdvd⟩ := roundfd_spec h
  have hlen : (newfgrp (some f)).nfd = roundfd f.maxfd := length_replicate
  refine ⟨⟨fun j hj => ?_, by rw [hlen]; exact hlt, nofun⟩, by rw [hlen]; exact hle, by rw [hlen]; exact hdvd⟩
  unfold Fgrp.InUse newfgrp at hj
  rw [getD_eq_getElem?_getD, List.getElem?_replicate] at hj
  split at hj <;> exact absurd rfl hj

theorem Ok.movefd {nfg : Fgrp Chan} {fds : List Int} (h : Ok nfg) : Ok (movefd f nfg fds) := by
  induction fds generalizing nfg with
  | nil => exact h
  | cons fd fds ih =>
    simp only [Fds.movefd]
    split
    · split
      · split
        · next hfd =>
          refine ih (h.use hfd.1 ?_ fun j hj => .inr (h.min j hj))
          rfl
        · exact ih h
      · exact ih h
    · exact ih h

theorem lt_roundfd (n : Nat) : n < roundfd n := by
  unfold roundfd DELTAFD
  split <;> omega

theorem Within.getD_dupfgrp (h : Within f) : (Fds.dupfgrp f).fd.getD j none = f.fd.getD j none := by
  show (f.fd.take (f.maxfd + 1) ++ List.replicate _ none).getD j none = _
  rw [getD_grown, getD_eq_getElem?_getD, List.getElem?_take]
  split
  · rw [getD_eq_getElem?_getD]
  · next hj =>
    by_contra hne
    have := h.max j fun hnone => hne hnone.symm
    omega

theorem Within.nfd_dupfgrp (h : Within f) : (Fds.dupfgrp f).nfd = roundfd f.maxfd := by
  have hmax := h.maxfd
  have hlt := lt_roundfd f.maxfd
  have htake : (f.fd.take (f.maxfd + 1)).length = f.maxfd + 1 := by
    rw [length_take]
    exact min_eq_left hmax
  show (f.fd.take (f.maxfd + 1) ++ List.replicate _ none).length = _
  rw [length_append, length_replicate, htake]
  omega

theorem Within.dupfgrp (h : Within f) : Within (Fds.dupfgrp f) := by
  refine ⟨fun j hj => h.max j ?_, ?_⟩
  · unfold Fgrp.InUse at hj ⊢
    rwa [h.getD_dupfgrp] at hj
  · rw [h.nfd_dupfgrp]
    exact lt_roundfd _

theorem Ok.dupfgrp (h : Ok f) : Ok (Fds.dupfgrp f) := by
  obtain ⟨hlt, hle, hdvd⟩ := roundfd_spec h
  have hlen := h.within.nfd_dupfgrp
  refine ⟨⟨h.within.dupfgrp.max, h.within.dupfgrp.maxfd, fun j hj => ?_⟩, hlen.trans_le hle, hlen ▸ hdvd⟩
  unfold Fgrp.InUse
  rw [h.within.getD_dupfgrp]
  exact h.min j hj

end

def AllOk (s : List (Fgrp Chan)) : Prop := ∀ f ∈ s, Ok f

variable {s s' : List (Fgrp Chan)} {f : Fgrp Chan} {g : Nat} {act : Act Chan} {acts : List (Act Chan)}

theorem AllOk.safe (h : AllOk s) : Safe s := fun f hf => ⟨(h f hf).toHints, (h f hf).least⟩

theorem AllOk.set (h : AllOk s) (hf : Ok f) : AllOk (s.set g f) := by
  intro f' hf'
  rcases mem_or_eq_of_mem_set hf' with hf' | rfl
  · exact h f' hf'
  · exact hf

theorem AllOk.append (h : AllOk s) (hf : Ok f) : AllOk (s ++ [f]) := by
  intro f' hf'
  rcases mem_append.1 hf' with hf' | hf'
  · exact h f' hf'
  · rwa [mem_singleton.1 hf']

theorem allOk_step (h : AllOk s) (hr : Room s act) (hs : step s act = some s') : AllOk s' := by
  have hget : ∀ {g f}, s[g]? = some f → Ok f := fun hg => h _ (mem_of_getElem? hg)
  cases act with
  | «open» g c mem =>
    obtain ⟨f, hg, rfl⟩ := map_eq_some_iff.1 hs
    split
    · exact h
    · next hn => exact h.set ((hget hg).newfd hn).2.1
  | pipe g c c' mem mem' =>
    obtain ⟨f, hg, rfl⟩ := map_eq_some_iff.1 hs
    exact h.set ((hget hg).kpipe (hr f hg))
  | dup g old new mem =>
    obtain ⟨f, hg, rfl⟩ := map_eq_some_iff.1 hs
    exact h.set (hget hg).kdup
  | close g fd =>
    obtain ⟨f, hg, rfl⟩ := map_eq_some_iff.1 hs
    exact h.set (hget hg).kclose
  | newfgrp =>
    cases hs
    exact h.append ok_newfgrp
  | copyfd g fds =>
    obtain ⟨f, hg, rfl⟩ := map_eq_some_iff.1 hs
    exact h.append (ok_newfgrp_some (hget hg)).movefd
  | dupfgrp g =>
    obtain ⟨f, hg, rfl⟩ := map_eq_some_iff.1 hs
    exact h.append (hget hg).dupfgrp

theorem not_safe_step (h : AllOk s) (hr : ¬ Room s act) (hs : step s act = some s') : ¬ Safe s' := by
  cases act with
  | pipe g c c' mem mem' =>
    obtain ⟨f, hg, rfl⟩ := map_eq_some_iff.1 hs
    have hok := h f (mem_of_getElem? hg)
    have hlt : g < s.length := (List.getElem?_eq_some_iff.1 hg).1
    have hbad : OneLeft f ∧ ¬ (f.nfd < MAXNFD ∧ mem' = true) := by
      by_contra hnot
      refine hr fun f' hf' hone => ?_
      obtain rfl := some.inj (hf'.symm.trans hg)
      by_contra hroom
      exact hnot ⟨hone, hroom⟩
    exact fun hsafe => kpipe_bad hok hbad.1 hbad.2 (hsafe _ (mem_set hlt _)).1
  | «open» | dup | close | newfgrp | copyfd | dupfgrp => exact absurd trivial hr

/-- The hints are right in all runs in which no pipe comes when one descriptor is left, and in no others. -/
theorem safe_iff_room : Always step Safe [newfgrp (none : Option (Fgrp Chan))] acts ↔
    Along step Room [newfgrp none] acts := by
  refine always_iff_along (I := AllOk) (fun _ h => h.safe) (fun _ _ _ => allOk_step) (fun _ _ _ => not_safe_step) ?_
  intro f hf
  rw [List.mem_singleton.1 hf]
  exact ok_newfgrp

def lastForPipe : List (Act Nat) := List.replicate 19 (.open 0 1 true) ++ [.pipe 0 1 1 true false]

theorem not_safe_lastForPipe : ¬ Always step Safe [newfgrp (none : Option (Fgrp Nat))] lastForPipe := by
  intro h
  have hrun : run step [newfgrp (none : Option (Fgrp Nat))] lastForPipe = some [_] := rfl
  have hmin := (h.last hrun _ (List.mem_singleton_self _)).1.min 19 (by decide)
  exact hmin rfl

end Node9.Fds
