import Mathlib

/-!
# Reference counts of objects and of what they refer to

Requests (`ρ`) take hold of entries of a table (`φ`), and each entry refers to an object (`κ`). A request can
also have references to objects of its own. `hold f` lists the requests that have the entry `f`, `own c` the
entries and the requests that have a reference to the object `c`, and `sw f` is the request that is about to
make `f` refer to another object, between giving up the old one and storing the new one. `Books` says that the
lists are right; the lemmas say how they change with what a request does. Their lengths are the reference
counts that a program keeps.
-/

namespace Refs
open Function

variable {φ ρ κ : Type}

structure Req (φ κ : Type) where
  /-- the entries that it has hold of -/
  fids : List φ := []
  /-- the object that it has a reference of its own to -/
  chan : Option κ := none
  /-- no one else has that object -/
  alone : Bool := false
  /-- the entry whose object it uses without a reference of its own -/
  touches : Option φ := none
  /-- that object, if it has read it already -/
  looks : Option (φ × κ) := none
  /-- the entry that it is about to make refer to another object -/
  assigning : Option φ := none
  /-- the entry that it gives its first object -/
  making : Option φ := none
  /-- the entry whose object it has seen -/
  seen : Option φ := none

structure Req.Ok (q : Req φ κ) : Prop where
  looks : ∀ f c, q.looks = some (f, c) → q.touches = some f
  touches : ∀ f, q.touches = some f → q.seen = some f
  assigning : ∀ f, q.assigning = some f → q.seen = some f
  seen : ∀ f, q.seen = some f → f ∈ q.fids
  making : ∀ f, q.making = some f → f ∈ q.fids

inductive Holder (φ ρ : Type)
  | ent (f : φ)
  | req (r : ρ)
deriving DecidableEq

structure Books (live : φ → Prop) (ref : φ → Int) (chan : φ → Option κ) (req : ρ → Req φ κ) (made : κ → Prop)
    (freed : List (φ × Option κ)) (hold : φ → List ρ) (sw : φ → Option ρ) (own : κ → List (Holder φ ρ)) : Prop where
  ok : ∀ r, (req r).Ok
  hold_iff : ∀ f r, r ∈ hold f ↔ f ∈ (req r).fids
  hold_nodup : ∀ f, (hold f).Nodup
  ref_eq : ∀ f, live f → ref f = (hold f).length
  live_of : ∀ r, ∀ f ∈ (req r).fids, live f
  sw_iff : ∀ f r, sw f = some r ↔ (req r).assigning = some f
  own_ent : ∀ c f, .ent f ∈ own c ↔ live f ∧ chan f = some c ∧ sw f = none
  own_req : ∀ c r, .req r ∈ own c ↔ (req r).chan = some c
  own_nodup : ∀ c, (own c).Nodup
  made_chan : ∀ f c, live f → chan f = some c → made c
  made_own : ∀ c, ¬ made c → own c = []
  chan_inj : ∀ f g c, live f → live g → chan f = some c → chan g = some c → f = g
  /-- a request and an entry have the same object: the request is about that entry -/
  chan_seen : ∀ r c f, (req r).chan = some c → live f → chan f = some c → (req r).seen = some f
  req_seen : ∀ r r' c, (req r).chan = some c → (req r').chan = some c → r ≠ r' →
    (req r).seen = (req r').seen ∧ (req r).alone = false
  alone : ∀ r c f, (req r).alone = true → (req r).chan = some c → live f → chan f ≠ some c
  touches : ∀ r f, (req r).touches = some f → sw f = none
  looks : ∀ r f c, (req r).looks = some (f, c) → chan f = some c
  making : ∀ r f, (req r).making = some f → chan f = none
  making_inj : ∀ r r' f, (req r).making = some f → (req r').making = some f → r = r'
  seen : ∀ r f, (req r).seen = some f → chan f ≠ none
  freed_own : ∀ f c, (f, some c) ∈ freed → made c ∧ own c = []

namespace Books
variable {live : φ → Prop} {ref : φ → Int} {chan : φ → Option κ} {req : ρ → Req φ κ} {made : κ → Prop}
  {freed : List (φ × Option κ)} {hold : φ → List ρ} {sw : φ → Option ρ} {own : κ → List (Holder φ ρ)}
  {r : ρ} {f nf : φ} {c : κ} {p : Req φ κ}

section
variable (h : Books live ref chan req made freed hold sw own)
include h

theorem made_req (hr : (req r).chan = some c) : made c := by
  by_contra hge
  have hm := (h.own_req c r).2 hr
  rw [h.made_own c hge] at hm
  cases hm

theorem sw_none (hf : chan f = none) : sw f = none := by
  rw [Option.eq_none_iff_forall_ne_some]
  intro r hr
  exact h.seen r f ((h.ok r).assigning f ((h.sw_iff f r).1 hr)) hf

theorem own_of_hold_nil (hf : live f) (hhold : hold f = [])
    (hfc : chan f = some c) : own c = [.ent f] := by
  have hno : ∀ r, f ∉ (req r).fids := fun r hr => by
    have hm := (h.hold_iff f r).2 hr
    rw [hhold] at hm
    cases hm
  have hswf : sw f = none := by
    rw [Option.eq_none_iff_forall_ne_some]
    exact fun r hr => hno r ((h.ok r).seen f ((h.ok r).assigning f ((h.sw_iff f r).1 hr)))
  have hmem := (h.own_ent c f).2 ⟨hf, hfc, hswf⟩
  have hall : ∀ x ∈ own c, x = .ent f := by
    intro x hx
    cases x with
    | ent g =>
      obtain ⟨hg, hgc, -⟩ := (h.own_ent c g).1 hx
      rw [h.chan_inj f g c hf hg hfc hgc]
    | req r => exact absurd ((h.ok r).seen f (h.chan_seen r c f ((h.own_req c r).1 hx) hf hfc)) (hno r)
  have hnd := h.own_nodup c
  cases hown : own c with
  | nil => simp [hown] at hmem
  | cons x xs =>
    rw [hown] at hall hnd
    obtain rfl := hall x (by simp)
    cases xs with
    | nil => rfl
    | cons y ys =>
      obtain rfl := hall y (by simp)
      simp at hnd

theorem free_nil {ref' : φ → Int} {chan' : φ → Option κ}
    (hhold : hold f = []) (hfc : chan f = none) (href : ∀ g, g ≠ f → ref' g = ref g ∧ chan' g = chan g) :
    Books (fun g => live g ∧ g ≠ f) ref' chan' req made ((f, none) :: freed) hold sw own := by
  have hno : ∀ r, f ∉ (req r).fids := fun r hr => by
    have hm := (h.hold_iff f r).2 hr
    rw [hhold] at hm
    cases hm
  cases h
  constructor
  all_goals grind -linarith [Req.Ok]

end

section
variable [DecidableEq ρ]

theorem move (h : Books live ref chan req made freed hold sw own) (hok : p.Ok) (hfids : p.fids = (req r).fids)
    (hchan : p.chan = (req r).chan) (hsw : p.assigning = (req r).assigning)
    (halone : p.alone = true → (req r).alone = true) (htouch : ∀ f, p.touches = some f → sw f = none)
    (hlooks : ∀ f c, p.looks = some (f, c) → chan f = some c) (hmaking : p.making = none)
    (hseen : ∀ f, p.seen = some f → chan f ≠ none) (hsame : ∀ c, p.chan = some c → p.seen = (req r).seen) :
    Books live ref chan (update req r p) made freed hold sw own := by
  cases h
  constructor
  all_goals try simp only [update_apply]
  all_goals grind -linarith [Req.Ok]

end

variable [DecidableEq φ] [DecidableEq ρ]

section
variable (h : Books live ref chan req made freed hold sw own)
include h

theorem get (hr : (req r).fids = []) (hrc : (req r).chan = none)
    (hrs : (req r).assigning = none) (hok : p.Ok) (hf : live f) (hfids : p.fids = [f]) (hchan : p.chan = none)
    (hsw : p.assigning = none) (hmaking : p.making = none) (hseen : p.seen = none) :
    Books live (update ref f (ref f + 1)) chan (update req r p) made freed
      (update hold f (r :: hold f)) sw own := by
  cases h
  constructor
  all_goals try simp only [update_apply]
  all_goals grind -linarith [Req.Ok]

theorem mkfid (hf : ¬ live f) (hok : p.Ok)
    (hfids : ∀ g, g ∈ p.fids ↔ g = f ∨ g ∈ (req r).fids) (hchan : p.chan = (req r).chan)
    (halone : p.alone = true → (req r).alone = true) (hrs : (req r).assigning = none) (hsw : p.assigning = none)
    (htouch : p.touches = none) (hmaking : p.making = some f) (hseen : p.seen = (req r).seen) :
    Books (fun g => g = f ∨ live g) (update ref f 1) (update chan f none)
    (update req r p) made
      freed (update hold f [r]) sw own := by
  cases h
  constructor
  all_goals try simp only [update_apply]
  all_goals grind -linarith [Req.Ok]

theorem put (hr : f ∈ (req r).fids) (hok : p.Ok)
    (hfids : ∀ g, g ∈ p.fids ↔ g ∈ (req r).fids ∧ g ≠ f) (hrc : (req r).chan = none) (hchan : p.chan = none)
    (hrs : (req r).assigning = none) (hsw : p.assigning = none) (hmaking : p.making = none) (hseen : p.seen = none) :
    Books live (update ref f (ref f - 1)) chan (update req r p) made freed
      (update hold f ((hold f).erase r)) sw own := by
  have hmem := (h.hold_iff f r).2 hr
  have herase : ∀ x, x ∈ (hold f).erase r ↔ x ≠ r ∧ x ∈ hold f := fun x => (h.hold_nodup f).mem_erase_iff
  have hlen : ((hold f).erase r).length = (hold f).length - 1 := List.length_erase_of_mem hmem
  have hpos : 0 < (hold f).length := List.length_pos_of_mem hmem
  have hnd := (h.hold_nodup f).erase r
  cases h
  constructor
  all_goals try simp only [update_apply]
  all_goals grind -linarith [Req.Ok]

theorem own_erase (c : κ) (y : Holder φ ρ) :
    (∀ x, x ∈ (own c).erase y ↔ x ≠ y ∧ x ∈ own c) ∧ ((own c).erase y).Nodup :=
  ⟨fun _ => (h.own_nodup c).mem_erase_iff, (h.own_nodup c).erase y⟩

end

variable [DecidableEq κ]

section
variable (h : Books live ref chan req made freed hold sw own)
include h

theorem free {ref' : φ → Int} {chan' : φ → Option κ} (hf : live f)
    (hhold : hold f = []) (hfc : chan f = some c) (href : ∀ g, g ≠ f → ref' g = ref g ∧ chan' g = chan g) :
    Books (fun g => live g ∧ g ≠ f) ref' chan' req made ((f, some c) :: freed) hold sw (update own c []) := by
  have hown := h.own_of_hold_nil hf hhold hfc
  have hno : ∀ r, f ∉ (req r).fids := fun r hr => by
    have hm := (h.hold_iff f r).2 hr
    rw [hhold] at hm
    cases hm
  cases h
  constructor
  all_goals try simp only [update_apply]
  all_goals grind -linarith [Req.Ok]

theorem attach (hc : ¬ made c) (hr : (req r).making = some f)
    (hok : p.Ok) (hfids : p.fids = (req r).fids) (hrc : (req r).chan = none) (hchan : p.chan = none)
    (hrs : (req r).assigning = none) (hsw : p.assigning = none) (hmaking : p.making = none) (hseen : p.seen = none) :
    Books live ref (update chan f (some c)) (update req r p) (fun d => d = c ∨ made d) freed hold sw
      (update own c [.ent f]) := by
  have hlive := h.live_of r f ((h.ok r).making f hr)
  have hnone := h.sw_none (h.making r f hr)
  have hmade := fun r c => h.made_req (r := r) (c := c)
  cases h
  constructor
  all_goals try simp only [update_apply]
  all_goals grind -linarith [Req.Ok]

theorem newchan (hc : ¬ made c) (hok : p.Ok)
    (hfids : p.fids = (req r).fids) (hrc : (req r).chan = none) (hchan : p.chan = some c)
    (hrs : (req r).assigning = none) (hsw : p.assigning = none) (htouch : p.touches = none) (hmaking : p.making = none)
    (hseen : ∀ f, p.seen = some f → chan f ≠ none) :
    Books live ref chan (update req r p) (fun d => d = c ∨ made d) freed hold sw
      (update own c [.req r]) := by
  have hmade := fun r c => h.made_req (r := r) (c := c)
  cases h
  constructor
  all_goals try simp only [update_apply]
  all_goals grind -linarith [Req.Ok]

theorem incref (hf : live f) (hfc : chan f = some c) (hok : p.Ok)
    (hfids : p.fids = (req r).fids) (hrc : (req r).chan = none) (hchan : p.chan = some c)
    (hrs : (req r).assigning = none) (hsw : p.assigning = none) (htouch : p.touches = none) (hmaking : p.making = none)
    (hseen : p.seen = some f) (halone : p.alone = false) (hswf : sw f = none) :
    Books live ref chan (update req r p) made freed hold sw (update own c (.req r :: own c)) := by
  have hmem := (h.own_ent c f).2 ⟨hf, hfc, hswf⟩
  cases h
  constructor
  all_goals try simp only [update_apply]
  all_goals grind -linarith [Req.Ok]

theorem give (hr : (req r).making = some nf)
    (hrc : (req r).chan = some c) (halone : (req r).alone = true) (hok : p.Ok) (hfids : p.fids = (req r).fids)
    (hchan : p.chan = none) (hrs : (req r).assigning = none) (hsw : p.assigning = none) (hmaking : p.making = none)
    (hseen : p.seen = none) :
    Books live ref (update chan nf (some c)) (update req r p) made freed hold sw
      (update own c (.ent nf :: (own c).erase (.req r))) := by
  have hlive := h.live_of r nf ((h.ok r).making nf hr)
  have hnone := h.sw_none (h.making r nf hr)
  have hmade := h.made_req hrc
  have hmem := (h.own_req c r).2 hrc
  obtain ⟨herase, hnd⟩ := h.own_erase c (.req r)
  cases h
  constructor
  all_goals try simp only [update_apply]
  all_goals grind -linarith [Req.Ok]

theorem swap (hf : live f) (hfc : chan f = some c) (hok : p.Ok)
    (hfids : p.fids = (req r).fids) (hchan : p.chan = (req r).chan) (hseen : p.seen = (req r).seen)
    (hrs : (req r).assigning = none) (hsw : p.assigning = some f) (htouch : p.touches = none)
    (hmaking : p.making = none)
    (halone : p.alone = false) (hswf : sw f = none) (hother : ∀ r', r' ≠ r → (req r').touches ≠ some f) :
    Books live ref chan (update req r p) made freed hold (update sw f (some r))
      (update own c ((own c).erase (.ent f))) := by
  have hmem := (h.own_ent c f).2 ⟨hf, hfc, hswf⟩
  obtain ⟨herase, hnd⟩ := h.own_erase c (.ent f)
  cases h
  constructor
  all_goals try simp only [update_apply]
  all_goals grind -linarith [Req.Ok]

theorem assign (hf : live f) (hr : (req r).assigning = some f)
    (hrc : (req r).chan = some c) (hok : p.Ok) (hfids : p.fids = (req r).fids) (hchan : p.chan = none)
    (hseen : p.seen = none) (hsw : p.assigning = none) (hmaking : p.making = none) :
    Books live ref (update chan f (some c)) (update req r p) made freed hold
    (update sw f none)
      (update own c (.ent f :: (own c).erase (.req r))) := by
  have hmem := (h.own_req c r).2 hrc
  have hmade := h.made_req hrc
  obtain ⟨herase, hnd⟩ := h.own_erase c (.req r)
  have hswf := (h.sw_iff f r).2 hr
  have hseenr := (h.ok r).assigning f hr
  cases h
  constructor
  all_goals try simp only [update_apply]
  all_goals grind -linarith [Req.Ok]

theorem drop (hrc : (req r).chan = some c) (hok : p.Ok)
    (hfids : p.fids = (req r).fids) (hchan : p.chan = none) (hseen : p.seen = none) (hrs : (req r).assigning = none)
    (hsw : p.assigning = none) (hmaking : p.making = none) :
    Books live ref chan (update req r p) made freed hold sw
    (update own c ((own c).erase (.req r))) := by
  have hmem := (h.own_req c r).2 hrc
  obtain ⟨herase, hnd⟩ := h.own_erase c (.req r)
  cases h
  constructor
  all_goals try simp only [update_apply]
  all_goals grind -linarith [Req.Ok]

end

end Books

/-! ### Counts that are high enough

`users c` lists the entries that refer to the object `c`, and there are at least as many references to it. -/

structure Counted (live : φ → Prop) (obj : φ → Option κ) (users : κ → List φ) (R : κ → Nat) : Prop where
  mem_iff : ∀ f c, f ∈ users c ↔ live f ∧ obj f = some c
  nodup : ∀ c, (users c).Nodup
  length_le : ∀ c, (users c).length ≤ R c

/-- One more reference to `c`. -/
def bump [DecidableEq κ] (R : κ → Nat) (c : κ) : κ → Nat := Function.update R c (R c + 1)

section
variable [DecidableEq κ] {R : κ → Nat} {c d : κ}

theorem bump_comm : bump (bump R c) d = bump (bump R d) c := by
  funext e
  by_cases hc : e = c <;> by_cases hd : e = d <;> simp only [bump, update_apply] <;> grind -linarith

theorem bump_pos : 0 < bump R c c := by simp [bump]

theorem exists_bump (hc : 0 < R c) : ∃ R₀, R = bump R₀ c := by
  refine ⟨update R c (R c - 1), ?_⟩
  rw [bump, update_self, update_idem, Nat.sub_add_cancel hc, update_eq_self]

theorem le_bump : R d ≤ bump R c d := by
  by_cases hd : d = c
  · subst hd
    simp [bump]
  · simp [bump, hd]

end

namespace Counted
variable {live : φ → Prop} {obj o : φ → Option κ} {users : κ → List φ} {R R' : κ → Nat} {f : φ} {c : κ}

theorem pos (h : Counted live obj users R) (hf : live f) (hc : obj f = some c) : 0 < R c :=
  lt_of_lt_of_le (List.length_pos_of_mem ((h.mem_iff f c).2 ⟨hf, hc⟩)) (h.length_le c)

theorem mono (h : Counted live obj users R) (hR : ∀ c, R c ≤ R' c) : Counted live obj users R' :=
  ⟨h.mem_iff, h.nodup, fun c => le_trans (h.length_le c) (hR c)⟩

theorem add (h : Counted live obj users R) (hf : o f = none) (hobj : ∀ g, g ≠ f → o g = obj g) (hlive : ¬ live f) :
    Counted (fun g => g = f ∨ live g) o users R := by
  cases h
  constructor
  all_goals grind -linarith

variable [DecidableEq φ] [DecidableEq κ]

theorem assign (h : Counted live obj users R) (hf : live f) (hnone : obj f = none) (hc : o f = some c)
    (hobj : ∀ g, g ≠ f → o g = obj g) : Counted live o (update users c (f :: users c)) (bump R c) := by
  cases h
  constructor
  all_goals simp only [bump, update_apply]
  all_goals grind -linarith

theorem clear {l : φ → Prop} (h : Counted live obj users (bump R c)) (hf : live f) (hc : obj f = some c)
    (hf' : ¬ (l f ∧ o f ≠ none)) (hlive : ∀ g, g ≠ f → (l g ↔ live g)) (hobj : ∀ g, g ≠ f → o g = obj g) :
    Counted l o (update users c ((users c).erase f)) R := by
  have hmem := (h.mem_iff f c).2 ⟨hf, hc⟩
  have herase : ∀ x, x ∈ (users c).erase f ↔ x ≠ f ∧ x ∈ users c := fun x => (h.nodup c).mem_erase_iff
  have hlen : ((users c).erase f).length = (users c).length - 1 := List.length_erase_of_mem hmem
  have hnd := (h.nodup c).erase f
  obtain ⟨hiff, hnodup, hle⟩ := h
  simp only [bump, update_apply] at hle
  constructor
  all_goals simp only [update_apply]
  all_goals grind -linarith

theorem remove {l : φ → Prop} (h : Counted live obj users R) (hf : live f) (hl : ∀ g, l g ↔ live g ∧ g ≠ f)
    (hobj : ∀ g, g ≠ f → o g = obj g) :
    ∃ users' R₀, Counted l o users' R₀ ∧ (obj f = none → R = R₀) ∧ ∀ c, obj f = some c → R = bump R₀ c := by
  cases hc : obj f with
  | none =>
    refine ⟨users, R, ⟨fun g c => ?_, h.nodup, h.length_le⟩, fun _ => rfl, nofun⟩
    rw [h.mem_iff, hl]
    constructor
    · rintro ⟨hg, hgc⟩
      have hgf : g ≠ f := by
        rintro rfl
        rw [hc] at hgc
        cases hgc
      exact ⟨⟨hg, hgf⟩, (hobj g hgf).trans hgc⟩
    · rintro ⟨⟨hg, hgf⟩, hgc⟩
      exact ⟨hg, (hobj g hgf).symm.trans hgc⟩
  | some c =>
    obtain ⟨R₀, rfl⟩ := exists_bump (h.pos hf hc)
    refine ⟨_, R₀, h.clear hf hc (fun hlf => ((hl f).1 hlf.1).2 rfl) (fun g hg => ?_) hobj, nofun, ?_⟩
    · simp [hl, hg]
    · rintro _ ⟨⟩
      rfl

end Counted

end Refs
