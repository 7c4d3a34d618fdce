import Node9.MountsOrder

/-!
# Mount points that a walk holds

`walk` keeps the `Mhead` it went through while a device walks, and comes back to its list when the device does not
know the name. In between it has a reference, but no lock. Here the processes of a group take turns at the locks:
`cmount` holds `ns` first and then only the lock of the `Mhead`, `cunmount` holds both, `findmount` goes from `ns` to
the lock of the `Mhead` it finds, and the loop of `walk` over a union and `createdir` hold the lock of the `Mhead`
only.

A walk with `nomount` holds no `Mhead` and has no steps here.
-/

namespace Node9.Mounts
open Linked Function Option

namespace Held

/-- A `cmount` that has unlocked `ns` and still holds the lock of its `Mhead`. -/
structure Mounting where
  new : Chan
  umh : Option Nat
  flag : BitVec 32
  spec : Option String

/-- Where the process is that walks. `dotdot` as in `walk`. -/
inductive Pc
  /-- not in `walk`, with the `Mhead` from the last `domount` -/
  | idle (m : Option Nat)
  /-- at the head of the loop -/
  | loop (mh : Option Nat)
  /-- waits for the device -/
  | devwalk (dotdot : Bool) (mh : Option Nat)
  /-- has unlocked the `Mhead` and goes on with its member `f` -/
  | joined (dotdot : Bool) (mh f : Nat)
  /-- looks for mount points along the path -/
  | path (mh : Option Nat)

structure Sys where
  s : St
  busy : Nat → Option Mounting
  pc : Pc
  /-- what `createdir` found last -/
  created : Option Chan
  /-- nil or a mount that is no longer in its list was read -/
  bad : Bool

inductive Act
  /-- `cmount` until it unlocks `ns` -/
  | lock (room : Nat) (new old : Chan) (umh : Option Nat) (flag : BitVec 32) (spec : Option String)
  /-- the rest of it -/
  | mount (room m : Nat)
  | cunmount (mnt : Loc) (mounted : Option Loc)
  | walk
  | domount (a : Loc)
  | dotdot
  /-- the device has walked -/
  | walked
  /-- it has not, and there is no union -/
  | refused
  /-- it has not; the member number `k` after the first has, if any -/
  | retry (k : Option Nat)
  /-- `type = f->to->type` -/
  | join
  | findmount (a : Loc)
  | next
  | stop
  | createdir
  | putmhead

def incmhead (m : Nat) (s : St) : St :=
  { s with head := update s.head m { s.head m with r := (s.head m).r + 1 } }

def putmp (mp : Option Nat) (s : St) : St := mp.elim s fun m => Mounts.putmhead m s

/-- `findmount` gets the locks from the first `Mhead` of the chain to the one it looks for. -/
def Sys.clearTo (x : Sys) (a : Loc) : List Nat → Bool
  | [] => true
  | m :: ms => (x.busy m).isNone && (eqchan (x.s.loc m) a || x.clearTo a ms)

def Sys.passes (x : Sys) (a : Loc) : Bool :=
  x.s.open 0 && x.clearTo a (collect x.s.hash .hash x.s.fuel (.bucket 0 (MOUNTH a)))

/-- `findmount(&c, &mp, …)` -/
def Sys.find (x : Sys) (a : Loc) (mp : Option Nat) (no : Pc) (yes : Nat → Pc) : Option Sys :=
  if x.passes a then
    match Mounts.findmount 0 a x.s with
    | .no => some { x with pc := no }
    | .mounted m _ => some { x with s := putmp mp (incmhead m x.s), pc := yes m }
    | .nilptr => some { x with bad := true }
  else none

/-- `wlock(&pg->ns)`, and the lock of the `Mhead` of `a`, if there is one. -/
def Sys.locks (x : Sys) (a : Loc) : Bool := x.s.open 0 && (x.s.lookup 0 a).2.all fun m => (x.busy m).isNone

/-- The first of the list that may be created in. -/
def createdir (m : Nat) (s : St) : Option Chan :=
  ((s.list m).find? fun f => (s.mount f).mflag &&& MCREATE != 0).map fun f => (s.mount f).toc

def step (x : Sys) : Act → Option Sys
  | .lock room new old umh flag spec =>
    if x.locks old.loc ∧ umh.all (· < x.s.fresh) then
      if new.qtdir ≠ old.qtdir then some x
      else if old.qtdir = false ∧ flag &&& MORDER ≠ MREPL then some x
      else if flag &&& MCREATE ≠ 0 ∧ notSimple x.s umh then some x
      else
        match mountHead 0 old (flag &&& MORDER) { x.s with room := room } with
        | (none, s) => some { x with s := s }
        | (some m, s) => some { x with s := s, busy := update x.busy m (some ⟨new, umh, flag, spec⟩) }
    else none
  | .mount room m =>
    match x.busy m with
    | none => none
    | some c =>
      some { x with
        s := (mountOn m c.new c.umh c.flag c.spec { x.s with room := room }).2
        busy := update x.busy m none }
  | .cunmount mnt mounted => if x.locks mnt then some { x with s := (Mounts.cunmount 0 mnt mounted x.s).2 } else none
  | .walk =>
    match x.pc with
    | .idle none => some { x with pc := .loop none }
    | _ => none
  | .domount a =>
    match x.pc with
    | .idle m => x.find a m (.idle m) fun m => .idle (some m)
    | .loop mh => x.find a mh (.devwalk false mh) fun m => .devwalk false (some m)
    | _ => none
  | .dotdot =>
    match x.pc with
    | .loop mh => some { x with pc := .devwalk true mh }
    | _ => none
  | .walked =>
    match x.pc with
    | .devwalk true mh => some { x with s := putmp mh x.s, pc := .loop none }
    | .devwalk false mh => some { x with pc := .path mh }
    | _ => none
  | .refused =>
    match x.pc with
    | .devwalk _ none => some { x with pc := .idle none }
    | _ => none
  | .retry k =>
    match x.pc with
    | .devwalk dotdot (some m) =>
      if x.busy m = none then
        match x.s.next (.mount m) with
        | none => some { x with bad := true }
        | some _ =>
          match k.bind fun k => (x.s.list m).tail[k]? with
          | none => some { x with s := Mounts.putmhead m x.s, pc := .idle none }
          | some f => some { x with pc := .joined dotdot m f }
      else none
    | _ => none
  | .join =>
    match x.pc with
    | .joined dotdot m f =>
      if f ∈ x.s.list m then
        some (if dotdot then { x with s := Mounts.putmhead m x.s, pc := .loop none }
          else { x with pc := .path (some m) })
      else some { x with bad := true }
    | _ => none
  | .findmount a =>
    match x.pc with
    | .path mh => x.find a mh (.path mh) fun m => .loop (some m)
    | _ => none
  | .next =>
    match x.pc with
    | .path mh => some { x with s := putmp mh x.s, pc := .loop none }
    | _ => none
  | .stop =>
    match x.pc with
    | .loop mh => some { x with s := putmp mh x.s, pc := .idle none }
    | .path mh => some { x with s := putmp mh x.s, pc := .idle none }
    | _ => none
  | .createdir =>
    match x.pc with
    | .idle (some m) => if x.busy m = none then some { x with created := createdir m x.s } else none
    | _ => none
  | .putmhead =>
    match x.pc with
    | .idle (some m) => some { x with s := Mounts.putmhead m x.s, pc := .idle none }
    | _ => none

/-- One group, with nothing mounted. -/
def init : Sys where
  s := newpgrp Mounts.init
  busy _ := none
  pc := .idle none
  created := none
  bad := false

/-- The `Mhead` whose list `walk` may come back to. -/
def Pc.held : Pc → Option Nat
  | .loop mh => mh
  | .devwalk _ mh => mh
  | _ => none

/-- Nobody empties a list that a walk may come back to, takes the mount out of it that a walk goes on with, or gets
no memory for the first mount of a list. -/
def Quiet (x : Sys) : Act → Prop
  | .mount room m =>
    ∀ c, x.busy m = some c →
      (x.s.list m = [] → (x.s.rest c.umh).length < room) ∧
        (c.flag &&& MORDER = MREPL → (∃ dotdot f, x.pc = .joined dotdot m f) → room ≤ (x.s.rest c.umh).length)
  | .cunmount mnt mounted =>
    ∀ m, (x.s.lookup 0 mnt).2 = some m →
      (x.pc.held = some m → remaining x.s mounted (x.s.list m) ≠ []) ∧
        ∀ dotdot f, x.pc = .joined dotdot m f → f ∈ remaining x.s mounted (x.s.list m)
  | _ => True

variable {x x' : Sys} {s s' : St} {own : Nat → Nat} {hs : Nat → Nat → List Nat} {fs : Nat → List Nat}

/-! ### The lock `ns` while mounts are put into a list -/

theorem wlocked_mountfree {n : Nat} {v : Option Nat} : (mountfree n v s).wlocked = s.wlocked := by
  induction n generalizing v s with
  | zero => rfl
  | succ n ih =>
    cases v with
    | none => rfl
    | some m => exact ih

theorem wlocked_newmount {mh : Nat} {toc : Chan} {flag : BitVec 32} {spec : Option String} :
    (newmount mh toc flag spec s).2.wlocked = s.wlocked := by
  unfold newmount
  split <;> rfl

theorem wlocked_copyUnion {m n : Nat} {flg : BitVec 32} {v : Option Nat} {c : MCell} :
    (copyUnion m flg n v c s).2.wlocked = s.wlocked := by
  induction n generalizing v c s with
  | zero => rfl
  | succ n ih =>
    cases v with
    | none => rfl
    | some u =>
      have hnew : (newmount m (s.mount u).toc flg (s.mount u).spec s).2.wlocked = s.wlocked := wlocked_newmount
      unfold copyUnion
      generalize newmount m (s.mount u).toc flg (s.mount u).spec s = r at *
      obtain ⟨f, s₁⟩ := r
      cases f with
      | none => exact hnew
      | some f => exact ih.trans hnew

theorem wlocked_attach {m nm : Nat} {flag : BitVec 32} : (attach m nm flag s).wlocked = s.wlocked := by
  have hreplace : ∀ s, (replace m (flag &&& MORDER) s).wlocked = s.wlocked := by
    intro s
    unfold replace
    split
    · exact wlocked_mountfree
    · rfl
  have hmcreate : ∀ s, (setMcreate nm flag s).wlocked = s.wlocked := by
    intro s
    unfold setMcreate
    split <;> rfl
  have hsplice : ∀ s, (splice m nm (flag &&& MORDER) s).wlocked = s.wlocked := by
    intro s
    unfold splice
    split <;> rfl
  exact (hsplice _).trans ((hmcreate _).trans (hreplace s))

theorem wlocked_mountOn {m : Nat} {new : Chan} {umh : Option Nat} {flag : BitVec 32} {spec : Option String} :
    (mountOn m new umh flag spec s).2.wlocked = s.wlocked := by
  have hnew : (newmount m new flag spec s).2.wlocked = s.wlocked := wlocked_newmount
  unfold mountOn
  generalize newmount m new flag spec s = r at *
  obtain ⟨nm, s₁⟩ := r
  cases nm with
  | none => exact hnew
  | some nm =>
    dsimp only
    generalize hc : copyUnion m _ _ _ _ s₁ = r
    obtain ⟨b, s₂⟩ := r
    have hcopy : s₂.wlocked = s₁.wlocked := by
      have hw := congrArg (fun r => r.2.wlocked) hc
      exact hw.symm.trans wlocked_copyUnion
    cases b with
    | false => exact hcopy.trans hnew
    | true => exact wlocked_attach.trans (hcopy.trans hnew)

theorem wlocked_mountHead {pg : Nat} {old : Chan} (order : BitVec 32) (hm : (s.lookup pg old.loc).2 = none) :
    ((mountHead pg old order s).1 = none → (mountHead pg old order s).2.wlocked pg = true) ∧
      ((mountHead pg old order s).1 ≠ none → (mountHead pg old order s).2.wlocked = s.wlocked) := by
  unfold mountHead
  generalize s.lookup pg old.loc = l at hm
  obtain ⟨l, m⟩ := l
  cases hm
  dsimp only
  by_cases hord : order = MREPL
  · rw [if_pos hord]
    exact ⟨fun hnone => absurd hnone (some_ne_none _), fun _ => rfl⟩
  rw [if_neg hord]
  unfold newmount
  dsimp only
  by_cases hroom : (newmhead old s).room = 0
  · rw [if_pos hroom]
    exact ⟨fun _ => update_self _ _ _, fun hne => absurd rfl hne⟩
  · rw [if_neg hroom]
    exact ⟨fun hnone => absurd hnone (some_ne_none _), fun _ => rfl⟩

theorem loc_incmhead {m : Nat} : (incmhead m s).loc = s.loc := by
  funext m'
  unfold St.loc incmhead
  by_cases hm : m' = m
  · subst hm
    simp
  · simp [update_of_ne hm]

theorem putmp_eq (mp : Option Nat) (h : Ok s own hs fs) :
    Ok (putmp mp s) own hs fs ∧ (putmp mp s).wlocked = s.wlocked ∧ (putmp mp s).fresh = s.fresh := by
  cases mp with
  | none => exact ⟨h, rfl, rfl⟩
  | some m => exact ⟨h.putmhead m, rfl, rfl⟩

structure Inv (x : Sys) (own : Nat → Nat) (hs : Nat → Nat → List Nat) (fs : Nat → List Nat) : Prop where
  ok : Ok x.s own hs fs
  /-- a list in the table is only empty while its lock is held, or nobody can get at the table -/
  full : x.s.wlocked 0 = false → ∀ m ∈ headsOf hs 0, x.busy m = none → fs m ≠ []
  lt : ∀ m c, x.busy m = some c → m < x.s.fresh
  held : ∀ m, x.pc.held = some m → fs m ≠ []
  joined : ∀ dotdot m f, x.pc = .joined dotdot m f → f ∈ fs m
  good : x.bad = false

theorem open_eq {pg : Nat} (h : s.open pg = true) : s.ref pg ≠ 0 ∧ s.wlocked pg = false := by
  unfold St.open at h
  simpa using h

theorem not_busy_of_passes {a : Loc} {m : Nat} (h : Ok x.s own hs fs) (hp : x.passes a = true)
    (hm : (x.s.lookup 0 a).2 = some m) : x.busy m = none := by
  have hlen : (hs 0 (MOUNTH a)).length ≤ x.s.fuel := Nat.le_succ_of_le h.length_hs_le
  unfold Sys.passes at hp
  rw [(h.hash 0 (MOUNTH a)).collect_eq hlen, Bool.and_eq_true] at hp
  rw [h.lookup_eq] at hm
  have hclear := hp.2
  dsimp only at hm
  generalize hs 0 (MOUNTH a) = ms at hm hclear
  induction ms with
  | nil => cases hm
  | cons m' ms ih =>
    simp only [Sys.clearTo, Bool.and_eq_true, Bool.or_eq_true, isNone_iff_eq_none] at hclear
    rw [List.find?_cons] at hm
    by_cases heq : eqchan (x.s.loc m') a = true
    · rw [heq] at hm
      cases hm
      exact hclear.1
    · rw [Bool.eq_false_iff.2 heq] at hm
      exact ih hm (hclear.2.resolve_left heq)

namespace Inv

theorem move {pc : Pc} {created : Option Chan} (h : Inv x own hs fs) (hok : Ok s' own hs fs)
    (hw : s'.wlocked = x.s.wlocked) (hf : s'.fresh = x.s.fresh) (hheld : ∀ m, pc.held = some m → fs m ≠ [])
    (hj : ∀ dotdot m f, pc = .joined dotdot m f → f ∈ fs m) :
    Inv ⟨s', x.busy, pc, created, x.bad⟩ own hs fs where
  ok := hok
  full hwl := h.full (by rw [← hw]; exact hwl)
  lt m c hm := by
    show m < s'.fresh
    rw [hf]
    exact h.lt m c hm
  held := hheld
  joined := hj
  good := h.good

theorem next_ne_none {m : Nat} (h : Ok s own hs fs) (hm : fs m ≠ []) : s.next (.mount m) ≠ none := by
  have hch := h.next m
  cases hfs : fs m with
  | nil => exact absurd hfs hm
  | cons f l =>
    rw [hfs] at hch
    rw [hch.1]
    exact some_ne_none f

section
variable (h : Inv x own hs fs)
include h

theorem find {a : Loc} {mp : Option Nat} {no : Pc} {yes : Nat → Pc}
    (hno : ∀ m, no.held = some m → fs m ≠ []) (hno' : ∀ dotdot m f, no ≠ .joined dotdot m f)
    (hyes : ∀ m m', (yes m).held = some m' → m' = m) (hyes' : ∀ m dotdot m' f, yes m ≠ .joined dotdot m' f)
    (hs' : x.find a mp no yes = some x') : Inv x' own hs fs := by
  unfold Sys.find at hs'
  by_cases hp : x.passes a = true
  · rw [if_pos hp] at hs'
    have hopen := (open_eq (Bool.and_eq_true_iff.1 hp).1).2
    unfold Mounts.findmount at hs'
    cases hlook : (x.s.lookup 0 a).2 with
    | none =>
      rw [hlook] at hs'
      cases hs'
      exact h.move h.ok rfl rfl hno fun dotdot m f heq => absurd heq (hno' dotdot m f)
    | some m =>
      have hne : fs m ≠ [] :=
        h.full hopen m (h.ok.mem_headsOf.2 (by
          obtain ⟨hmem, hloc⟩ := h.ok.lookup_some hlook
          rw [hloc]
          exact hmem)) (not_busy_of_passes h.ok hp hlook)
      rw [hlook] at hs'
      dsimp only at hs'
      cases hnext : x.s.next (.mount m) with
      | none => exact absurd hnext (next_ne_none h.ok hne)
      | some f =>
        rw [hnext] at hs'
        cases hs'
        have hinc : Ok (incmhead m x.s) own hs fs := h.ok.congr rfl rfl loc_incmhead (fun _ => rfl) rfl
        obtain ⟨hput, hw, hf⟩ := putmp_eq mp hinc
        refine h.move hput hw hf (fun m' hm' => ?_) fun dotdot m' f' heq => absurd heq (hyes' m dotdot m' f')
        rw [hyes m m' hm']
        exact hne
  · rw [if_neg hp] at hs'
    cases hs'

theorem lock {room : Nat} {new old : Chan} {umh : Option Nat} {flag : BitVec 32} {spec : Option String} (hs' : step x (.lock room new old umh flag spec) = some x') :
    ∃ own' hs₁ fs', Inv x' own' hs₁ fs' := by
  simp only [step, ite_none_right_eq_some] at hs'
  obtain ⟨⟨hlocks, -⟩, hs'⟩ := hs'
  split at hs'
  · cases hs'
    exact ⟨own, hs, fs, h⟩
  split at hs'
  · cases hs'
    exact ⟨own, hs, fs, h⟩
  split at hs'
  · cases hs'
    exact ⟨own, hs, fs, h⟩
  have hok : Ok { x.s with room := room } own hs fs := h.ok.congr rfl rfl rfl (fun _ => rfl) rfl
  cases hlook : (({ x.s with room := room } : St).lookup 0 old.loc).2 with
  | some m =>
    rw [mountHead_some hlook] at hs'
    cases hs'
    have hm := (hok.bucket _ _ m (hok.lookup_some hlook).1).2.2
    refine ⟨own, hs, fs, hok, fun hw m' hm' hb => h.full hw m' hm' ?_, fun m' c hm' => ?_, h.held, h.joined, h.good⟩
    · by_cases hmm : m' = m
      · subst hmm
        dsimp only at hb
        rw [update_self] at hb
        cases hb
      · dsimp only at hb
        rwa [update_of_ne hmm] at hb
    · by_cases hmm : m' = m
      · rw [hmm]
        exact hm
      · dsimp only at hm'
        rw [update_of_ne hmm] at hm'
        exact h.lt m' c hm'
  | none =>
    obtain ⟨-, hsome, hlt, hok', -⟩ := mountHead_none (flag &&& MORDER) hok hlook
    have hw := wlocked_mountHead (flag &&& MORDER) hlook
    generalize mountHead 0 old (flag &&& MORDER) { x.s with room := room } = r at *
    obtain ⟨m, s₁⟩ := r
    dsimp only at hsome hlt hok' hw hs'
    -- only the list of the new `Mhead` may have changed
    generalize hfs₁ : (if flag &&& MORDER = MREPL ∨ room = 0 then fs
      else update fs x.s.fresh [x.s.fresh + 1]) = fs₁ at hok'
    have hfs : ∀ m' < x.s.fresh, fs₁ m' = fs m' := by
      intro m' hm'
      rw [← hfs₁]
      split
      · rfl
      · exact update_of_ne (ne_of_lt hm') _ _
    have hold : ∀ m', fs m' ≠ [] → fs₁ m' ≠ [] := by
      intro m' hm'
      rw [hfs m' (lt_of_not_ge fun hle => hm' (h.ok.new m' hle))]
      exact hm'
    have hjoined : ∀ dotdot m' f, x.pc = .joined dotdot m' f → f ∈ fs₁ m' := by
      intro dotdot m' f heq
      have hf := h.joined dotdot m' f heq
      rwa [hfs m' (lt_of_not_ge fun hle => by rw [h.ok.new m' hle] at hf; cases hf)]
    cases m with
    | none =>
      cases hs'
      have hw := hw.1 rfl
      refine ⟨_, _, fs₁, hok', fun hwl => ?_, fun m' c hm' => lt_trans (h.lt m' c hm') hlt,
        fun m' hm' => hold m' (h.held m' hm'), hjoined, h.good⟩
      exact absurd (hw.symm.trans hwl) Bool.false_ne_true.symm
    | some m =>
      cases hs'
      obtain rfl : m = x.s.fresh := by
        split at hsome
        · exact some.inj hsome
        · cases hsome
      have hw := hw.2 (some_ne_none _)
      refine ⟨_, _, fs₁, hok', fun hwl m' hm' hb => ?_, fun m' c hm' => ?_, fun m' hm' => hold m' (h.held m' hm'),
        hjoined,
        h.good⟩
      · dsimp only at hb hwl
        have hne : m' ≠ x.s.fresh := by
          rintro rfl
          rw [update_self] at hb
          cases hb
        rw [update_of_ne hne] at hb
        rw [hw] at hwl
        exact hold m' (h.full hwl m' ((mem_headsOf_addHead.1 hm').resolve_right fun heq => hne heq.2) hb)
      · by_cases hmm : m' = x.s.fresh
        · rw [hmm]
          exact hlt
        · dsimp only at hm'
          rw [update_of_ne hmm] at hm'
          exact lt_trans (h.lt m' c hm') hlt

theorem mount {room m : Nat} (hG : Quiet x (.mount room m))
    (hs' : step x (.mount room m) = some x') : ∃ own' hs₁ fs', Inv x' own' hs₁ fs' := by
  simp only [step] at hs'
  cases hbusy : x.busy m with
  | none =>
    rw [hbusy] at hs'
    cases hs'
  | some c =>
    rw [hbusy] at hs'
    cases hs'
    have hok : Ok { x.s with room := room } own hs fs := h.ok.congr rfl rfl rfl (fun _ => rfl) rfl
    obtain ⟨hG₁, hG₂⟩ := hG c hbusy
    rw [h.ok.list_eq, h.ok.rest_eq] at hG₁
    rw [h.ok.rest_eq] at hG₂
    obtain ⟨hfail, hdone⟩ := mountOn_spec c.new c.umh c.flag c.spec hok (h.lt m c hbusy)
    have hw : (mountOn m c.new c.umh c.flag c.spec { x.s with room := room }).2.wlocked = x.s.wlocked := wlocked_mountOn
    -- whoever still has the lock of another `Mhead`
    have hother : ∀ m' c', update x.busy m none m' = some c' → x.busy m' = some c' := by
      intro m' c' hm'
      by_cases hmm : m' = m
      · subst hmm
        rw [update_self] at hm'
        cases hm'
      · rwa [update_of_ne hmm] at hm'
    by_cases hroom : room ≤ (rest fs c.umh).length
    · obtain ⟨-, halloc⟩ := hfail hroom
      refine ⟨own, hs, fs, halloc.ok hok, fun hwl m' hm' hb => ?_, fun m' c' hm' => ?_, h.held, h.joined, h.good⟩
      · dsimp only at hb hwl
        by_cases hmm : m' = m
        · intro hnil
          rw [hmm] at hnil
          have := hG₁ hnil
          omega
        · rw [update_of_ne hmm] at hb
          rw [hw] at hwl
          exact h.full hwl m' hm' hb
      · exact lt_of_lt_of_le (h.lt m' c' (hother m' c' hm')) halloc.fresh
    obtain ⟨-, hframe, hok', -⟩ := hdone (by show _ < room; omega)
    have hm : ordered (c.flag &&& MORDER) (fs m) (List.range' x.s.fresh ((rest fs c.umh).length + 1)) ≠ [] :=
      ordered_ne_nil range'_succ_ne_nil
    refine ⟨own, hs, _, hok', fun hwl m' hm' hb => ?_, fun m' c' hm' => ?_, fun m' hm' => ?_,
      fun dotdot m' f heq => ?_,
      h.good⟩
    · dsimp only at hb hwl
      by_cases hmm : m' = m
      · rw [hmm, update_self]
        exact hm
      · rw [update_of_ne hmm] at hb ⊢
        rw [hw] at hwl
        exact h.full hwl m' hm' hb
    · exact lt_of_lt_of_le (h.lt m' c' (hother m' c' hm')) hframe.fresh
    · by_cases hmm : m' = m
      · rw [hmm, update_self]
        exact hm
      · rw [update_of_ne hmm]
        exact h.held m' hm'
    · have hf := h.joined dotdot m' f heq
      by_cases hmm : m' = m
      · subst hmm
        have hord : ¬ c.flag &&& MORDER = MREPL := fun hord => hroom (hG₂ hord ⟨dotdot, f, heq⟩)
        rw [update_self]
        unfold ordered
        rw [if_neg hord]
        split
        · exact List.mem_append_left _ hf
        · exact List.mem_append_right _ hf
      · rwa [update_of_ne hmm]

theorem cunmount {mnt : Loc} {mounted : Option Loc} (hG : Quiet x (.cunmount mnt mounted))
    (hs' : step x (.cunmount mnt mounted) = some x') : ∃ own' hs₁ fs', Inv x' own' hs₁ fs' := by
  simp only [step, ite_none_right_eq_some] at hs'
  obtain ⟨hlocks, hs'⟩ := hs'
  cases hs'
  by_cases hno : ∀ m, (x.s.lookup 0 mnt).2 = some m → ∃ c, mounted = some c ∧ (fs m).find? (isMounted x.s c) = none
  · rw [(cunmount_error h.ok hno).1]
    exact ⟨own, hs, fs, h⟩
  push Not at hno
  obtain ⟨m, hm, hfind⟩ := hno
  obtain ⟨-, hframe, hok', -⟩ := cunmount_spec h.ok hm hfind
  obtain ⟨hG₁, hG₂⟩ := hG m hm
  rw [h.ok.list_eq] at hG₁ hG₂
  have hwl := (open_eq (Bool.and_eq_true_iff.1 hlocks).1).2
  refine ⟨own, _, _, hok', fun _ m' hm' hb => ?_, fun m' c hm' => lt_of_lt_of_le (h.lt m' c hm') hframe.fresh,
    fun m' hm' => ?_, fun dotdot m' f heq => ?_, h.good⟩
  · by_cases hnil : remaining x.s mounted (fs m) = []
    · rw [if_pos hnil] at hm'
      have hmm : m' ≠ m := fun heq => not_mem_dropHead h.ok hm (heq ▸ hm')
      rw [update_of_ne hmm]
      exact h.full hwl m' (headsOf_dropHead hm') hb
    rw [if_neg hnil] at hm'
    by_cases hmm : m' = m
    · rw [hmm, update_self]
      exact hnil
    · rw [update_of_ne hmm]
      exact h.full hwl m' hm' hb
  · by_cases hmm : m' = m
    · subst hmm
      rw [update_self]
      exact hG₁ hm'
    · rw [update_of_ne hmm]
      exact h.held m' hm'
  · by_cases hmm : m' = m
    · subst hmm
      rw [update_self]
      exact hG₂ dotdot f heq
    · rw [update_of_ne hmm]
      exact h.joined dotdot m' f heq

end

theorem leave {pc : Pc} (mp : Option Nat) {created : Option Chan} (h : Inv x own hs fs) (hheld : pc.held = none)
    (hj : ∀ dotdot m f, pc ≠ .joined dotdot m f) : Inv ⟨putmp mp x.s, x.busy, pc, created, x.bad⟩ own hs fs := by
  obtain ⟨hok, hw, hf⟩ := putmp_eq mp h.ok
  refine h.move hok hw hf (fun m hm => ?_) fun dotdot m f heq => absurd heq (hj dotdot m f)
  rw [hheld] at hm
  cases hm

theorem retry {k : Option Nat} (h : Inv x own hs fs) (hs' : step x (.retry k) = some x') : Inv x' own hs fs := by
  simp only [step] at hs'
  cases hpc : x.pc with
  | devwalk dotdot mh =>
    rw [hpc] at hs'
    cases mh with
    | none => cases hs'
    | some m =>
      dsimp only at hs'
      by_cases hbusy : x.busy m = none
      · rw [if_pos hbusy] at hs'
        have hne : fs m ≠ [] := h.held m (by rw [hpc]; rfl)
        cases hnext : x.s.next (.mount m) with
        | none => exact absurd hnext (next_ne_none h.ok hne)
        | some f =>
          rw [hnext] at hs'
          dsimp only at hs'
          cases hk : k.bind fun k => (x.s.list m).tail[k]? with
          | none =>
            rw [hk] at hs'
            cases hs'
            refine h.move (h.ok.putmhead m) rfl rfl (fun m' hm' => ?_) fun d m' f' heq => ?_
            · cases hm'
            · cases heq
          | some f =>
            rw [hk] at hs'
            cases hs'
            refine h.move h.ok rfl rfl (fun m' hm' => ?_) fun d m' f' heq => ?_
            · cases hm'
            · cases heq
              obtain ⟨k, -, hk⟩ := bind_eq_some_iff.1 hk
              rw [← h.ok.list_eq]
              exact List.mem_of_mem_tail (List.mem_of_getElem? hk)
      · rw [if_neg hbusy] at hs'
        cases hs'
  | idle m => rw [hpc] at hs'; cases hs'
  | loop mh => rw [hpc] at hs'; cases hs'
  | joined d m f => rw [hpc] at hs'; cases hs'
  | path mh => rw [hpc] at hs'; cases hs'

end Inv

theorem inv_step {a : Act} (h : Inv x own hs fs) (hG : Quiet x a) (hs' : step x a = some x') :
    ∃ own' hs₁ fs', Inv x' own' hs₁ fs' := by
  cases a with
  | lock room new old umh flag spec => exact h.lock hs'
  | mount room m => exact h.mount hG hs'
  | cunmount mnt mounted => exact h.cunmount hG hs'
  | walk =>
    simp only [step] at hs'
    split at hs'
    · cases hs'
      exact ⟨own, hs, fs, h.leave none rfl fun _ _ _ heq => by cases heq⟩
    · cases hs'
  | domount a =>
    simp only [step] at hs'
    split at hs'
    · refine ⟨own, hs, fs, h.find (fun m hm => ?_) (fun _ _ _ heq => ?_) (fun m m' hm => ?_)
        (fun _ _ _ _ heq => ?_) hs'⟩
      · cases hm
      · cases heq
      · cases hm
      · cases heq
    · next mh hpc =>
      refine ⟨own, hs, fs, h.find (fun m hm => h.held m ?_) (fun _ _ _ heq => ?_) (fun m m' hm => ?_)
        (fun _ _ _ _ heq => ?_) hs'⟩
      · rw [hpc]
        exact hm
      · cases heq
      · exact (some.inj hm).symm
      · cases heq
    · cases hs'
  | dotdot =>
    simp only [step] at hs'
    split at hs'
    · next mh hpc =>
      cases hs'
      refine ⟨own, hs, fs, h.move h.ok rfl rfl (fun m hm => h.held m ?_) fun _ _ _ heq => by cases heq⟩
      rw [hpc]
      exact hm
    · cases hs'
  | walked =>
    simp only [step] at hs'
    split at hs'
    · cases hs'
      exact ⟨own, hs, fs, h.leave _ rfl fun _ _ _ heq => by cases heq⟩
    · cases hs'
      exact ⟨own, hs, fs, h.leave none rfl fun _ _ _ heq => by cases heq⟩
    · cases hs'
  | refused =>
    simp only [step] at hs'
    split at hs'
    · cases hs'
      exact ⟨own, hs, fs, h.leave none rfl fun _ _ _ heq => by cases heq⟩
    · cases hs'
  | retry k => exact ⟨own, hs, fs, h.retry hs'⟩
  | join =>
    simp only [step] at hs'
    split at hs'
    · next dotdot m f hpc =>
      have hf : f ∈ x.s.list m := by
        rw [h.ok.list_eq]
        exact h.joined dotdot m f hpc
      rw [if_pos hf] at hs'
      cases dotdot with
      | true =>
        cases hs'
        exact ⟨own, hs, fs, h.leave (some m) rfl fun _ _ _ heq => by cases heq⟩
      | false =>
        cases hs'
        exact ⟨own, hs, fs, h.leave none rfl fun _ _ _ heq => by cases heq⟩
    · cases hs'
  | findmount a =>
    simp only [step] at hs'
    split at hs'
    · refine ⟨own, hs, fs, h.find (fun m hm => ?_) (fun _ _ _ heq => ?_) (fun m m' hm => ?_)
        (fun _ _ _ _ heq => ?_) hs'⟩
      · cases hm
      · cases heq
      · exact (some.inj hm).symm
      · cases heq
    · cases hs'
  | next =>
    simp only [step] at hs'
    split at hs'
    · cases hs'
      exact ⟨own, hs, fs, h.leave _ rfl fun _ _ _ heq => by cases heq⟩
    · cases hs'
  | stop =>
    simp only [step] at hs'
    split at hs'
    · cases hs'
      exact ⟨own, hs, fs, h.leave _ rfl fun _ _ _ heq => by cases heq⟩
    · cases hs'
      exact ⟨own, hs, fs, h.leave _ rfl fun _ _ _ heq => by cases heq⟩
    · cases hs'
  | createdir =>
    simp only [step] at hs'
    split at hs'
    · next m hpc =>
      split at hs'
      · cases hs'
        exact ⟨own, hs, fs, h.move h.ok rfl rfl h.held h.joined⟩
      · cases hs'
    · cases hs'
  | putmhead =>
    simp only [step] at hs'
    split at hs'
    · next m hpc =>
      cases hs'
      exact ⟨own, hs, fs, h.leave (some m) rfl fun _ _ _ heq => by cases heq⟩
    · cases hs'

theorem inv_init : ∃ own hs fs, Inv init own hs fs := by
  obtain ⟨own, hs, fs, hok, -⟩ := Mounts.inv_init
  obtain ⟨hok', -⟩ := newpgrp_spec hok
  refine ⟨own, _, fs, hok', fun _ m hm => ?_, fun m c hm => ?_, fun m hm => ?_, fun dotdot m f heq => ?_, rfl⟩
  · have hnil : headsOf (update hs Mounts.init.npgrp fun _ => []) 0 = [] := by
      simp [headsOf, Mounts.init]
    rw [hnil] at hm
    cases hm
  · cases hm
  · cases hm
  · cases heq

/-- In a quiet run nobody reads nil, or a mount that has been taken out of its list. -/
theorem always_good_of_quiet {as : List Act} (h : Steps.Along step Quiet init as) :
    Steps.Always step (fun x => x.bad = false) init as := by
  refine (h.always (I := fun x => ∃ own hs fs, Inv x own hs fs) ?_ inv_init).mono ?_
  · rintro x a x' ⟨own, hs, fs, hI⟩ hG hs'
    exact inv_step hI hG hs'
  · rintro x ⟨own, hs, fs, hI⟩
    exact hI.good

/-- `B` is on `A`, and a walk has gone through it and waits for the server of `B`. -/
def walkThroughA : List Act :=
  [.lock 1 chanB chanA none MREPL none, .mount 1 0, .walk, .domount chanA.loc]

/-- The server of `B` does not have the name, and nothing else is on `A`. -/
theorem always_good_of_quiet_refused :
    Steps.Always step (fun x => x.bad = false) init (walkThroughA ++ [.retry none, .cunmount chanA.loc none]) := by
  refine always_good_of_quiet (.cons trivial rfl (.cons (fun c hc => ?_) rfl (.cons trivial rfl ?_)))
  · cases hc
    refine ⟨fun _ => Nat.one_pos, fun _ hj => ?_⟩
    obtain ⟨dotdot, f, heq⟩ := hj
    cases heq
  · refine .cons trivial rfl (.cons trivial rfl
      (.cons (fun m hm => ⟨fun hheld => ?_, fun dotdot f heq => ?_⟩) rfl trivial))
    · cases hheld
    · cases heq

/-- `unmount A` comes before the answer that `B` does not have the name: `walk` goes through nil. -/
theorem not_good_unmounted : ¬ ∀ as, Steps.Always step (fun x => x.bad = false) init as := by
  intro h
  have hbad : (Steps.run step init (walkThroughA ++ [.cunmount chanA.loc none, .retry none])).map Sys.bad =
    some true := rfl
  obtain ⟨x, hrun, hx⟩ := map_eq_some_iff.1 hbad
  have hgood : x.bad = false := (h _).last hrun
  exact Bool.false_ne_true (hgood.symm.trans hx)

end Held
end Node9.Mounts
