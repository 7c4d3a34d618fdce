import Node9.Lib.Steps

/-!
# The create race (`namec` with `Acreate` in `chan.c`)

Processes create one name in a directory, which can be a union. A process looks into one member after the other, and
creates in the first that has `MCREATE`; each of these, and each open, is a request to a device, which other processes
can come before. `create` of a device fails if the file is there, and otherwise makes a file with a qid that no file
has had, so that nothing is mounted upon it. Everything before the last element has been walked; nothing is removed,
mounted or unmounted.
-/

namespace Node9.Create
open Steps Function List

/-- An error is told by what has raised it: `Eexist` says that the file is there, be it said by `namec` or by the
device, `create` that the file cannot be created, `open` that it cannot be opened with `OTRUNC`. -/
inductive Err
  | Eexist
  | create
  | open
deriving DecidableEq

/-- The directory, the processes `ι`, and what the devices permit them. `mount` is the list of the `Mhead`, with
`mflag & MCREATE` for each member, if the directory is mounted upon (and `nomount` is not set). -/
structure Namec (D F ι : Type) where
  c : D
  mount : Option (List (D × Bool))
  /-- `omode & OEXCL` -/
  oexcl : ι → Bool
  mayCreate : D → ι → Bool
  mayOpen : ι → F → Bool
  /-- the file that a process makes -/
  made : ι → F
  /-- what is mounted upon a file, or the file -/
  domount : F → F
  unmounted : ∀ i, domount (made i) = made i

/-- Where a call is: in the first walk or the second, with the members that are left; at the create; at the open. -/
inductive Pc (D F : Type)
  | walk (second : Bool) (rest : List D)
  | create
  | open (f : F)
  | ret (r : Except Err F)

/-- The file of that name in each of the directories, and the calls. -/
@[ext]
structure St (D F ι : Type) where
  file : D → Option F
  pc : ι → Pc D F

namespace Namec
variable {D F ι : Type} [DecidableEq D] [DecidableEq ι] (n : Namec D F ι)

def members : List D := n.mount.elim [n.c] fun l => l.map Prod.fst

def createdir : Option D := n.mount.elim (some n.c) fun l => (l.find? fun f => f.2).map Prod.fst

/-- The create failed with this error. -/
def failed (i : ι) (e : Err) : Pc D F := if n.oexcl i then .ret (.error e) else .walk true n.members

/-- One request of the call `i`, and where the call is then. -/
def request (i : ι) (file : D → Option F) : Pc D F → Option ((D → Option F) × Pc D F)
  | .walk second [] => some (file, if second then .ret (.error .create) else .create)
  | .walk second (d :: rest) =>
    match file d with
    | some f => some (file, if !second && n.oexcl i then .ret (.error .Eexist) else .open f)
    | none => some (file, .walk second rest)
  | .create =>
    match n.createdir with
    | none => some (file, n.failed i .create)
    | some d =>
      if !n.mayCreate d i then some (file, n.failed i .create)
      else if (file d).isSome then some (file, n.failed i .Eexist)
      else some (Function.update file d (some (n.made i)), .ret (.ok (n.made i)))
  | .open f => some (file, .ret (if n.mayOpen i (n.domount f) then .ok (n.domount f) else .error .open))
  | .ret _ => none

def step (s : St D F ι) (i : ι) : Option (St D F ι) :=
  (n.request i s.file (s.pc i)).map fun r => ⟨r.1, Function.update s.pc i r.2⟩

def init (file : D → Option F) : St D F ι := ⟨file, fun _ => .walk false n.members⟩

end Namec

/-! ### What a call should do -/

variable {D F ι : Type}

def lookup (file : D → Option F) (l : List D) : Option F := l.findSome? file

namespace Namec
variable (n : Namec D F ι)

/-- What a call returns for a file that is there. -/
def found (i : ι) (f : F) : Except Err F :=
  if n.oexcl i then .error .Eexist else if n.mayOpen i (n.domount f) then .ok (n.domount f) else .error .open

/-- No file can be created by `i`. -/
def Refused (i : ι) : Prop := ∀ d, n.createdir = some d → n.mayCreate d i = false

theorem createdir_mem {d : D} (h : n.createdir = some d) : d ∈ n.members := by
  unfold createdir at h
  unfold members
  cases hm : n.mount with
  | none =>
    rw [hm] at h
    cases h
    exact mem_singleton_self _
  | some l =>
    rw [hm] at h
    obtain ⟨x, hx, rfl⟩ := Option.map_eq_some_iff.1 h
    exact mem_map_of_mem (mem_of_find?_eq_some hx)

end Namec

open Namec (request found)

variable {n : Namec D F ι} {file : D → Option F} {s s' : St D F ι} {c i : ι} {d : D} {f : F} {l : List D}
    {pc pc' : Pc D F}

theorem lookup_eq_none_iff : lookup file l = none ↔ ∀ d ∈ l, file d = none := List.findSome?_eq_none_iff

/-- What is true of a call when the file was there at first. -/
def Pc.There (n : Namec D F ι) (file : D → Option F) (f : F) (i : ι) : Pc D F → Prop
  | .walk false rest => lookup file rest = some f
  | .open f' => f' = f ∧ n.oexcl i = false
  | .ret r => r = n.found i f
  | _ => False

/-- What is true of a call when the file was not there, and is not yet. -/
def Pc.Before (n : Namec D F ι) (i : ι) : Pc D F → Prop
  | .walk false rest => rest ⊆ n.members
  | .walk true rest => rest ⊆ n.members ∧ n.oexcl i = false ∧ n.Refused i
  | .create => True
  | .open _ => False
  | .ret r => r = .error .create ∧ n.Refused i

/-- What is true of a call when `f` has been created in `d` by another. -/
def Pc.After (n : Namec D F ι) (d : D) (f : F) (i : ι) : Pc D F → Prop
  | .walk false rest => rest ⊆ n.members
  | .walk true rest => rest ⊆ n.members ∧ n.oexcl i = false ∧ (n.Refused i ∨ d ∈ rest)
  | .create => True
  | .open f' => f' = f ∧ n.oexcl i = false
  | .ret r => (r = .error .create ∧ n.Refused i) ∨ r = n.found i f

theorem Pc.Before.after (h : pc.Before n i) (d : D) (f : F) : pc.After n d f i := by
  cases pc with
  | walk second rest =>
    cases second with
    | false => exact h
    | true => exact ⟨h.1, h.2.1, .inl h.2.2⟩
  | create => trivial
  | «open» f' => exact h.elim
  | ret r => exact .inl h

theorem Namec.failed_cases (i : ι) (e : Err) :
    (n.oexcl i = true ∧ n.failed i e = .ret (.error e)) ∨ (n.oexcl i = false ∧
    n.failed i e = .walk true n.members) := by
  cases h : n.oexcl i with
  | true => exact .inl ⟨rfl, by simp [failed, h]⟩
  | false => exact .inr ⟨rfl, by simp [failed, h]⟩

theorem Namec.failed_before {e : Err} (he : e = .create) (hi : n.Refused i) : (n.failed i e).Before n i := by
  subst he
  rcases n.failed_cases i .create with ⟨-, h⟩ | ⟨hx, h⟩ <;> rw [h]
  · exact ⟨rfl, hi⟩
  · exact ⟨List.Subset.refl _, hx, hi⟩

theorem forall_update [DecidableEq ι] {P : ι → Pc D F → Prop} {pcs : ι → Pc D F} (hi : P i pc)
    (h : ∀ j, j ≠ i → P j (pcs j)) :
    ∀ j, P j (update pcs i pc j) := by
  intro j
  rcases eq_or_ne j i with rfl | hne
  · rwa [update_self]
  · rw [update_of_ne hne]
    exact h j hne

/-- What an open of the name opens. -/
def Namec.opened (n : Namec D F ι) (file : D → Option F) : Option F := (lookup file n.members).map n.domount

theorem opened_of_lookup (hf : lookup file n.members = some f) :
    n.opened file = some (n.domount f) := congrArg (Option.map n.domount) hf

theorem found_eq_ok_iff {g : F} :
    n.found i f = .ok g ↔ n.oexcl i = false ∧ n.mayOpen i (n.domount f) = true ∧ n.domount f = g := by
  unfold found
  cases n.oexcl i <;> cases n.mayOpen i (n.domount f) <;> simp

/-- How many requests a call can still make. -/
def Pc.rank (n : Namec D F ι) : Pc D F → Nat
  | .walk false rest => rest.length + n.members.length + 3
  | .walk true rest => rest.length + 1
  | .create => n.members.length + 2
  | .open _ => 1
  | .ret _ => 0

theorem Namec.failed_rank (i : ι) (e : Err) : (n.failed i e).rank n < (Pc.create : Pc D F).rank n := by
  rcases n.failed_cases i e with ⟨-, h⟩ | ⟨-, h⟩ <;> rw [h] <;> simp [Pc.rank]

theorem found_ne_create (n : Namec D F ι) (i : ι) (f : F) : n.found i f ≠ .error .create := by
  unfold found
  split_ifs <;> simp

section
variable [DecidableEq D] {file' : D → Option F}

theorem Pc.There.request (h : pc.There n file f i) (hr : n.request i file pc = some (file', pc')) :
    file' = file ∧ pc'.There n file f i := by
  cases pc with
  | walk second rest =>
    cases second with
    | true => exact h.elim
    | false =>
      cases rest with
      | nil => exact absurd h (by simp [Pc.There, lookup])
      | cons d rest =>
        cases hd : file d with
        | none =>
          simp only [request, hd] at hr
          cases hr
          exact ⟨rfl, by simpa [Pc.There, lookup, hd] using h⟩
        | some g =>
          obtain rfl : g = f := by simpa [Pc.There, lookup, hd] using h
          simp only [request, hd] at hr
          cases hr
          refine ⟨rfl, ?_⟩
          cases hx : n.oexcl i with
          | true => simp [Pc.There, found, hx]
          | false => simp [Pc.There, hx]
  | create => exact h.elim
  | «open» g =>
    obtain ⟨rfl, hx⟩ := h
    cases hr
    exact ⟨rfl, by simp [Pc.There, found, hx]⟩
  | ret r => cases hr

theorem Pc.Before.request (h : pc.Before n i) (hf : lookup file n.members = none)
    (hr : n.request i file pc = some (file', pc')) :
    (file' = file ∧ pc'.Before n i) ∨
      ∃ d, n.createdir = some d ∧ n.mayCreate d i = true ∧ file' = update file d (some (n.made i)) ∧
        pc' = .ret (.ok (n.made i)) := by
  rw [lookup_eq_none_iff] at hf
  cases pc with
  | walk second rest =>
    refine .inl ?_
    have hrest : rest ⊆ n.members := by
      cases second with
      | false => exact h
      | true => exact h.1
    cases rest with
    | nil =>
      cases hr
      cases second with
      | false => exact ⟨rfl, trivial⟩
      | true => exact ⟨rfl, rfl, h.2.2⟩
    | cons d rest =>
      obtain ⟨hd, hrest⟩ := cons_subset.1 hrest
      simp only [request, hf d hd] at hr
      cases hr
      cases second with
      | false => exact ⟨rfl, hrest⟩
      | true => exact ⟨rfl, hrest, h.2⟩
  | create =>
    cases hc : n.createdir with
    | none =>
      simp only [request, hc] at hr
      cases hr
      exact .inl ⟨rfl, Namec.failed_before rfl fun d hd => by simp [hc] at hd⟩
    | some d =>
      cases hm : n.mayCreate d i with
      | false =>
        simp only [request, hc, hm, Bool.not_false, if_true] at hr
        cases hr
        refine .inl ⟨rfl, Namec.failed_before rfl fun d' hd' => ?_⟩
        cases hc.symm.trans hd'
        exact hm
      | true =>
        simp only [request, hc, hm, hf d (n.createdir_mem hc)] at hr
        cases hr
        exact .inr ⟨d, rfl, hm, rfl, rfl⟩
  | «open» f => exact h.elim
  | ret r => cases hr

theorem Pc.After.request (h : pc.After n d f i) (hc : n.createdir = some d)
    (hf : ∀ d' ∈ n.members, file d' = if d' = d then some f else none)
    (hr : n.request i file pc = some (file', pc')) : file' = file ∧ pc'.After n d f i := by
  have hd : d ∈ n.members := n.createdir_mem hc
  have hfd : file d = some f := by simpa using hf d hd
  cases pc with
  | walk second rest =>
    have hrest : rest ⊆ n.members := by
      cases second with
      | false => exact h
      | true => exact h.1
    cases rest with
    | nil =>
      cases hr
      cases second with
      | false => exact ⟨rfl, trivial⟩
      | true => exact ⟨rfl, .inl ⟨rfl, h.2.2.resolve_right not_mem_nil⟩⟩
    | cons d' rest =>
      obtain ⟨hd', hrest⟩ := cons_subset.1 hrest
      rcases eq_or_ne d' d with rfl | hne
      · -- the file is met
        simp only [request, hfd] at hr
        cases hr
        refine ⟨rfl, ?_⟩
        cases second with
        | false =>
          cases hx : n.oexcl i with
          | true => exact .inr (by simp [found, hx])
          | false => exact ⟨rfl, hx⟩
        | true => exact ⟨rfl, h.2.1⟩
      · simp only [request, hf d' hd', if_neg hne] at hr
        cases hr
        refine ⟨rfl, ?_⟩
        cases second with
        | false => exact hrest
        | true => exact ⟨hrest, h.2.1, h.2.2.imp_right fun hm => (mem_cons.1 hm).resolve_left hne.symm⟩
  | create =>
    cases hm : n.mayCreate d i with
    | false =>
      simp only [request, hc, hm, Bool.not_false, if_true] at hr
      cases hr
      refine ⟨rfl, (Namec.failed_before rfl fun d' hd' => ?_).after d f⟩
      cases hc.symm.trans hd'
      exact hm
    | true =>
      simp only [request, hc, hm, hfd] at hr
      cases hr
      refine ⟨rfl, ?_⟩
      rcases n.failed_cases i .Eexist with ⟨hx, h⟩ | ⟨hx, h⟩ <;> rw [h]
      · exact .inr (by simp [found, hx])
      · exact ⟨List.Subset.refl _, hx, .inr hd⟩
  | «open» g =>
    obtain ⟨rfl, hx⟩ := h
    cases hr
    exact ⟨rfl, .inr (by simp [found, hx])⟩
  | ret r => cases hr

theorem request_rank (hr : n.request i file pc = some (file', pc')) : pc'.rank n < pc.rank n := by
  cases pc with
  | walk second rest =>
    cases rest with
    | nil => cases hr; cases second <;> simp [Pc.rank]
    | cons d rest =>
      cases hd : file d with
      | none =>
        simp only [request, hd] at hr
        cases hr
        cases second <;> simp [Pc.rank]
      | some f =>
        simp only [request, hd] at hr
        cases hr
        cases second <;> cases n.oexcl i <;> simp [Pc.rank]
  | create =>
    cases hc : n.createdir with
    | none =>
      simp only [request, hc] at hr
      cases hr
      exact n.failed_rank i _
    | some d =>
      simp only [request, hc] at hr
      split_ifs at hr <;> cases hr
      · exact n.failed_rank i _
      · exact n.failed_rank i _
      · simp [Pc.rank]
  | «open» f => cases hr; simp [Pc.rank]
  | ret r => cases hr

theorem request_isSome (h : ∀ r, pc ≠ .ret r) : (n.request i file pc).isSome := by
  cases pc with
  | walk second rest =>
    cases rest with
    | nil => rfl
    | cons d rest => cases hd : file d <;> simp [request, hd]
  | create =>
    cases hc : n.createdir with
    | none => simp [request, hc]
    | some d =>
      simp only [request, hc]
      split_ifs <;> rfl
  | «open» f => rfl
  | ret r => exact absurd rfl (h r)

theorem lookup_update (hf : lookup file l = none) (hd : d ∈ l) :
    lookup (update file d (some f)) l = some f := by
  induction l with
  | nil => cases hd
  | cons d' l ih =>
    obtain ⟨hd', hl⟩ := forall_mem_cons.1 (lookup_eq_none_iff.1 hf)
    rcases eq_or_ne d' d with rfl | hne
    · simp [lookup]
    · have := ih (lookup_eq_none_iff.2 hl) ((mem_cons.1 hd).resolve_left hne.symm)
      simpa [lookup, hne, hd'] using this

/-- Requests of `i`, told by what they change. -/
abbrev Goes (n : Namec D F ι) (i : ι) : (D → Option F) × Pc D F → (D → Option F) × Pc D F → Prop :=
  Relation.ReflTransGen fun x y => n.request i x.1 x.2 = some y

theorem goes_walk_none {second : Bool} (hf : lookup file l = none) :
    Goes n i (file, .walk second l) (file, .walk second []) := by
  induction l with
  | nil => exact .refl
  | cons d rest ih =>
    obtain ⟨hd, hrest⟩ := forall_mem_cons.1 (lookup_eq_none_iff.1 hf)
    exact .head (by simp [request, hd]) (ih (lookup_eq_none_iff.2 hrest))

theorem goes_walk_some (hf : lookup file l = some f) : Goes n i (file, .walk false l) (file, .ret (n.found i f)) := by
  induction l with
  | nil => cases hf
  | cons d rest ih =>
    cases hd : file d with
    | none => exact .head (by simp [request, hd]) (ih (by simpa [lookup, hd] using hf))
    | some g =>
      obtain rfl : g = f := by simpa [lookup, hd] using hf
      cases hx : n.oexcl i with
      | true => exact .single (by simp [request, found, hd, hx])
      | false =>
        have hwalk : n.request i file (.walk false (d :: rest)) = some (file, .open g) := by
          simp [request, hd, hx]
        have hopen : n.request i file (.open g) = some (file, .ret (n.found i g)) := by
          simp [request, found, hx]
        exact .head hwalk (.single hopen)

theorem goes_create (hf : lookup file n.members = none) (hc : n.createdir = some d) (hm : n.mayCreate d i = true) :
    Goes n i (file, .walk false n.members) (update file d (some (n.made i)), .ret (.ok (n.made i))) := by
  have hfd := lookup_eq_none_iff.1 hf d (n.createdir_mem hc)
  have hcreate : n.request i file .create = some (update file d (some (n.made i)), .ret (.ok (n.made i))) := by
    simp [request, hc, hm, hfd]
  exact (goes_walk_none hf).trans (.head rfl (.single hcreate))

theorem goes_refused (hf : lookup file n.members = none) (hi : n.Refused i) :
    Goes n i (file, .walk false n.members) (file, .ret (.error .create)) := by
  have hcreate : n.request i file .create = some (file, n.failed i .create) := by
    cases hc : n.createdir with
    | none => simp [request, hc]
    | some d => simp [request, hc, hi d hc]
  refine (goes_walk_none hf).trans (.head rfl ?_)
  rcases n.failed_cases i .create with ⟨-, h⟩ | ⟨-, h⟩ <;> rw [h] at hcreate
  · exact .single hcreate
  · exact .head hcreate ((goes_walk_none hf).tail rfl)

/-- The state of the race: the file was there at first, or is not yet, or `c` has created it. -/
inductive Inv (n : Namec D F ι) (file : D → Option F) (s : St D F ι) : Prop
  | there (f : F) (hf : lookup file n.members = some f) (hfile : s.file = file) (hpc : ∀ i, (s.pc i).There n file f i)
  | before (hf : lookup file n.members = none) (hfile : s.file = file) (hpc : ∀ i, (s.pc i).Before n i)
  | after (hf : lookup file n.members = none) (c : ι) (d : D) (hc : n.createdir = some d)
    (hm : n.mayCreate d c = true) (hfile : s.file = Function.update file d (some (n.made c)))
    (hpc : s.pc c = .ret (.ok (n.made c))) (hothers : ∀ i, i ≠ c → (s.pc i).After n d (n.made c) i)

theorem init_inv (n : Namec D F ι) (file : D → Option F) : Inv n file (n.init file) := by
  cases hf : lookup file n.members with
  | none => exact .before hf rfl fun i => List.Subset.refl _
  | some f => exact .there f hf rfl fun i => hf

variable [DecidableEq ι]

theorem step_cases (h : n.step s i = some s') :
    ∃ file' pc', n.request i s.file (s.pc i) = some (file', pc') ∧ s' = ⟨file', update s.pc i pc'⟩ := by
  obtain ⟨⟨file', pc'⟩, hr, rfl⟩ := Option.map_eq_some_iff.1 h
  exact ⟨file', pc', hr, rfl⟩

theorem Inv.step (hs : Inv n file s) (h : n.step s i = some s') : Inv n file s' := by
  obtain ⟨file', pc', hr, rfl⟩ := step_cases h
  cases hs with
  | there f hf hfile hpc =>
    rw [hfile] at hr
    obtain ⟨rfl, hpc'⟩ := (hpc i).request hr
    exact .there f hf rfl (forall_update hpc' fun j _ => hpc j)
  | before hf hfile hpc =>
    rw [hfile] at hr
    rcases (hpc i).request hf hr with ⟨rfl, hpc'⟩ | ⟨d, hc, hm, rfl, rfl⟩
    · exact .before hf rfl (forall_update hpc' fun j _ => hpc j)
    · refine .after hf i d hc hm rfl (update_self ..) fun j hj => ?_
      simpa only [update_of_ne hj] using (hpc j).after d (n.made i)
  | after hf c d hc hm hfile hpc hothers =>
    have hne : i ≠ c := by
      rintro rfl
      rw [hpc] at hr
      cases hr
    have hf' : ∀ d' ∈ n.members, s.file d' = if d' = d then some (n.made c) else none := by
      intro d' hd'
      rw [hfile, update_apply, lookup_eq_none_iff.1 hf d' hd']
    obtain ⟨rfl, hpc'⟩ := (hothers i hne).request hc hf' hr
    have hc' : update s.pc i pc' c = s.pc c := update_of_ne hne.symm ..
    refine .after hf c d hc hm hfile (hc'.trans hpc) ?_
    exact forall_update (P := fun j pc => j ≠ c → pc.After n d (n.made c) j) (fun _ => hpc') fun j _ => hothers j

theorem run_inv {as : List ι} (h : run n.step (n.init file) as = some s) : Inv n file s :=
  (always_of_step (fun _ _ _ => Inv.step) (init_inv n file)).last h

/-! ### One call after the other -/

/-- The requests of the call `i`, and no others, lead from `s` to `s'`. -/
def Alone (n : Namec D F ι) (i : ι) (s s' : St D F ι) : Prop := ∃ k, run n.step s (List.replicate k i) = some s'

/-- Each call of `order` has made all its requests before the next makes its first. -/
def Serial (n : Namec D F ι) : List ι → St D F ι → St D F ι → Prop
  | [], s, s' => s' = s
  | i :: order, s, s' => ∃ t, Alone n i s t ∧ Serial n order t s'

theorem Goes.alone (h : Goes n i (s.file, s.pc i) (file', pc')) : Alone n i s ⟨file', update s.pc i pc'⟩ := by
  generalize hx : (s.file, s.pc i) = x at h
  induction h using Relation.ReflTransGen.head_induction_on generalizing s with
  | refl =>
    cases hx
    exact ⟨0, by rw [update_eq_self]; rfl⟩
  | @head x y hr _ ih =>
    subst hx
    obtain ⟨k, hk⟩ := ih (s := ⟨y.1, update s.pc i y.2⟩) (by simp)
    rw [update_idem] at hk
    exact ⟨k + 1, run_cons.2 ⟨_, by rw [Namec.step, hr]; rfl, hk⟩⟩

theorem serial_of_goes {order : List ι} (hnd : order.Nodup) (hfile : s'.file = s.file)
    (h : ∀ i ∈ order, Goes n i (s.file, s.pc i) (s.file, s'.pc i)) (hrest : ∀ i, i ∉ order → s'.pc i = s.pc i) :
    Serial n order s s' := by
  induction order generalizing s with
  | nil => exact St.ext hfile (funext fun i => hrest i not_mem_nil)
  | cons i order ih =>
    obtain ⟨hi, hnd⟩ := nodup_cons.1 hnd
    have hne : ∀ j ∈ order, j ≠ i := fun j hj heq => hi (heq ▸ hj)
    refine ⟨_, (h i mem_cons_self).alone, ih hnd hfile ?_ ?_⟩
    · intro j hj
      simpa only [update_of_ne (hne j hj)] using h j (mem_cons_of_mem i hj)
    · intro j hj
      rcases eq_or_ne j i with rfl | hji
      · simp
      · rw [hrest j (not_mem_cons_of_ne_of_not_mem hji hj)]
        simp [hji]

theorem Serial.append {order order' : List ι} {t : St D F ι} (h : Serial n order s t) (h' : Serial n order' t s') :
    Serial n (order ++ order') s s' := by
  induction order generalizing s with
  | nil => cases h; exact h'
  | cons i order ih =>
    obtain ⟨u, hu, h⟩ := h
    exact ⟨u, hu, ih h⟩

theorem serial_of_created (hf : lookup file n.members = none) (hc : n.createdir = some d)
    (hm : n.mayCreate d c = true) (hfile : s.file = update file d (some (n.made c)))
    (hpc : s.pc c = .ret (.ok (n.made c)))
    (hothers : ∀ i, i ≠ c → s.pc i = .ret (.error .create) ∧ n.Refused i ∨ s.pc i = .ret (n.found i (n.made c)))
    {calls : List ι} (hnd : calls.Nodup) (hall : ∀ i, i ∈ calls) :
    ∃ order, order.Perm calls ∧ Serial n order (n.init file) s := by
  classical
  let refused (i : ι) : Bool := s.pc i = .ret (.error .create)
  have href : ∀ i, refused i = true ↔ s.pc i = .ret (.error .create) := fun i => decide_eq_true_iff
  have hcref : refused c = false := by simp [refused, hpc]
  have hcmem : c ∈ calls.filter fun i => !refused i := mem_filter.2 ⟨hall c, by rw [hcref]; rfl⟩
  let finders := (calls.filter fun i => !refused i).erase c
  have hfinders : ∀ i, i ∈ finders ↔ i ≠ c ∧ s.pc i ≠ .ret (.error .create) := by
    intro i
    rw [(hnd.filter _).mem_erase_iff, mem_filter, ne_eq (s.pc i), ← href]
    simp [hall i]
  have hfound : lookup s.file n.members = some (n.made c) := hfile ▸ lookup_update hf (n.createdir_mem hc)
  let t₁ : St D F ι := ⟨file, fun i => if refused i then .ret (.error .create) else .walk false n.members⟩
  have ht₁ : t₁.pc c = .walk false n.members := if_neg (by rw [hcref]; exact Bool.false_ne_true)
  let t₂ : St D F ι := ⟨s.file, update t₁.pc c (.ret (.ok (n.made c)))⟩
  have ht₂ : ∀ i, i ≠ c → t₂.pc i = t₁.pc i := fun i hne => update_of_ne hne ..
  refine ⟨calls.filter refused ++ c :: finders, ?_, Serial.append (t := t₁) ?_ ⟨t₂, ?_, ?_⟩⟩
  · exact ((perm_cons_erase hcmem).symm.append_left _).trans (filter_append_perm refused calls)
  · refine serial_of_goes (hnd.filter _) rfl (fun i hi => ?_) fun i hi => if_neg fun h => ?_
    · have hi := (mem_filter.1 hi).2
      have hne : i ≠ c := fun heq => by simp [heq, hcref] at hi
      have hr : t₁.pc i = .ret (.error .create) := if_pos hi
      rw [hr]
      rcases hothers i hne with ⟨-, hi⟩ | hfi
      · exact goes_refused hf hi
      · rw [href, hfi] at hi
        exact absurd (Pc.ret.inj hi) (found_ne_create n i _)
    · exact hi (mem_filter.2 ⟨hall i, h⟩)
  · have hgoes : Goes n c (t₁.file, t₁.pc c) (s.file, .ret (.ok (n.made c))) := by
      rw [ht₁, hfile]
      exact goes_create hf hc hm
    exact hgoes.alone
  · refine serial_of_goes ((hnd.filter _).erase _) rfl (fun i hi => ?_) fun i hi => ?_
    · obtain ⟨hne, hi⟩ := (hfinders i).1 hi
      have hstart : t₂.pc i = .walk false n.members := (ht₂ i hne).trans (if_neg fun h => hi ((href i).1 h))
      rw [hstart, (hothers i hne).resolve_left fun h => hi h.1]
      exact goes_walk_some hfound
    rcases eq_or_ne i c with rfl | hne
    · have hself : t₂.pc i = .ret (.ok (n.made i)) := update_self ..
      exact hpc.trans hself.symm
    · have hr : s.pc i = .ret (.error .create) := by
        by_contra h
        exact hi ((hfinders i).2 ⟨hne, h⟩)
      exact hr.trans ((ht₂ i hne).trans (if_pos ((href i).2 hr))).symm

theorem Inv.serial (hs : Inv n file s) (hret : ∀ i, ∃ r, s.pc i = .ret r) {calls : List ι} (hnd : calls.Nodup)
    (hall : ∀ i, i ∈ calls) : ∃ order, order.Perm calls ∧ Serial n order (n.init file) s := by
  cases hs with
  | there f hf hfile hpc =>
    refine ⟨calls, .refl _, serial_of_goes hnd hfile (fun i _ => ?_) fun i hi => absurd (hall i) hi⟩
    obtain ⟨r, hr⟩ := hret i
    have hi := hpc i
    rw [hr] at hi ⊢
    cases hi
    exact goes_walk_some hf
  | before hf hfile hpc =>
    refine ⟨calls, .refl _, serial_of_goes hnd hfile (fun i _ => ?_) fun i hi => absurd (hall i) hi⟩
    obtain ⟨r, hr⟩ := hret i
    have hi := hpc i
    rw [hr] at hi ⊢
    obtain ⟨rfl, hi⟩ := hi
    exact goes_refused hf hi
  | after hf c d hc hm hfile hpc hothers =>
    refine serial_of_created hf hc hm hfile hpc (fun i hne => ?_) hnd hall
    obtain ⟨r, hr⟩ := hret i
    have hi := hothers i hne
    rw [hr] at hi ⊢
    rcases hi with ⟨rfl, hi⟩ | rfl
    · exact .inl ⟨rfl, hi⟩
    · exact .inr rfl

theorem run_count {as : List ι} (h : run n.step s as = some s') (i : ι) :
    as.count i + (s'.pc i).rank n ≤ (s.pc i).rank n := by
  induction as generalizing s with
  | nil => cases h; simp
  | cons j as ih =>
    obtain ⟨t, ht, h⟩ := run_cons.1 h
    obtain ⟨file', pc', hr, rfl⟩ := step_cases ht
    have hrest := ih h
    rcases eq_or_ne j i with rfl | hne
    · have hlt := request_rank hr
      rw [count_cons_self]
      simp only [update_self] at hrest
      omega
    · rw [count_cons_of_ne hne]
      simpa only [update_of_ne hne.symm] using hrest

omit [DecidableEq ι] in
theorem Inv.returned (hs : Inv n file s) {r : Except Err F} (hr : s.pc i = .ret r) :
    (∀ f, r = .ok f → n.opened s.file = some f) ∧
      (n.oexcl i = false → ¬ n.Refused i ∨ lookup file n.members ≠ none →
        ∃ f, n.opened s.file = some f ∧ (n.mayOpen i f = true → r = .ok f)) := by
  have hfound : ∀ f, lookup s.file n.members = some f → r = n.found i f →
      (∀ g, r = .ok g → n.opened s.file = some g) ∧
        (n.oexcl i = false → ∃ g, n.opened s.file = some g ∧ (n.mayOpen i g = true → r = .ok g)) := by
    rintro f hf rfl
    refine ⟨fun g hg => ?_, fun hx => ⟨_, opened_of_lookup hf, fun hm => found_eq_ok_iff.2 ⟨hx, hm, rfl⟩⟩⟩
    obtain ⟨-, -, rfl⟩ := found_eq_ok_iff.1 hg
    exact opened_of_lookup hf
  cases hs with
  | there f hf hfile hpc =>
    have hi := hpc i
    rw [hr] at hi
    obtain ⟨hok, hperm⟩ := hfound f (hfile ▸ hf) hi
    exact ⟨hok, fun hx _ => hperm hx⟩
  | before hf hfile hpc =>
    have hi := hpc i
    rw [hr] at hi
    obtain ⟨rfl, hi⟩ := hi
    exact ⟨fun f h => (by cases h), fun _ h => absurd hf (h.resolve_left fun h => h hi)⟩
  | after hf c d hc hm hfile hpc hothers =>
    have hfile' : lookup s.file n.members = some (n.made c) := hfile ▸ lookup_update hf (n.createdir_mem hc)
    have hopened : n.opened s.file = some (n.made c) := by rw [opened_of_lookup hfile', n.unmounted]
    rcases eq_or_ne i c with rfl | hne
    · obtain rfl : .ok (n.made i) = r := Pc.ret.inj (hpc.symm.trans hr)
      refine ⟨fun f h => ?_, fun _ _ => ⟨_, hopened, fun _ => rfl⟩⟩
      cases h
      exact hopened
    have hi := hothers i hne
    rw [hr] at hi
    rcases hi with ⟨rfl, hi⟩ | hi
    · exact ⟨fun f h => (by cases h), fun _ h => absurd hf (h.resolve_left fun h => h hi)⟩
    · obtain ⟨hok, hperm⟩ := hfound _ hfile' hi
      exact ⟨hok, fun hx _ => hperm hx⟩

theorem Inv.oexcl_unique {j : ι} (hs : Inv n file s) {f g : F} (hi : n.oexcl i = true) (hj : n.oexcl j = true)
    (hri : s.pc i = .ret (.ok f)) (hrj : s.pc j = .ret (.ok g)) : i = j := by
  have hfound : ∀ {i : ι} {f g : F}, n.oexcl i = true → .ok f ≠ n.found i g := by
    intro i f g hi h
    have hx := (found_eq_ok_iff.1 h.symm).1
    rw [hi] at hx
    cases hx
  cases hs with
  | there f' hf hfile hpc =>
    have h := hpc i
    rw [hri] at h
    exact absurd h (hfound hi)
  | before hf hfile hpc =>
    have h := hpc i
    rw [hri] at h
    cases h.1
  | after hf c d hc hm hfile hpc hothers =>
    have hc : ∀ {k : ι} {f : F}, n.oexcl k = true → s.pc k = .ret (.ok f) → k = c := by
      intro k f hk hrk
      by_contra hne
      have h := hothers k hne
      rw [hrk] at h
      rcases h with ⟨h, -⟩ | h
      · cases h
      · exact hfound hk h
    rw [hc hi hri, hc hj hrj]

/-- Any number of processes create one name, and have got anywhere. A call that has not returned can go on, and makes
boundedly many requests. Those that have succeeded have the same file, which is the one that is there; one without
`OEXCL` has succeeded if it may open the file, unless it was refused the create of a file that was not there at first;
and one at most with `OEXCL`. When all have returned, the calls might as well have come one after the other. -/
theorem create_race [Fintype ι] (n : Namec D F ι) (file : D → Option F) (as : List ι) {s : St D F ι}
    (h : run n.step (n.init file) as = some s) :
    (∀ i r, s.pc i = .ret r →
      (∀ f, r = .ok f → n.opened s.file = some f) ∧
        (n.oexcl i = false → ¬ n.Refused i ∨ lookup file n.members ≠ none →
          ∃ f, n.opened s.file = some f ∧ (n.mayOpen i f = true → r = .ok f))) ∧
    (∀ i j f g, n.oexcl i = true → n.oexcl j = true → s.pc i = .ret (.ok f) → s.pc j = .ret (.ok g) → i = j) ∧
    (∀ i, as.count i ≤ 2 * n.members.length + 3 ∧ ((∀ r, s.pc i ≠ .ret r) → (n.step s i).isSome)) ∧
    ((∀ i, ∃ r, s.pc i = .ret r) →
      ∃ order : List ι, order.Perm Finset.univ.toList ∧ Serial n order (n.init file) s) := by
  have hs := run_inv h
  refine ⟨fun i r => hs.returned, fun i j f g => hs.oexcl_unique, fun i => ⟨?_, fun hi => ?_⟩, fun hret => ?_⟩
  · have hcount := run_count h i
    have hrank : ((n.init file).pc i).rank n = n.members.length + n.members.length + 3 := rfl
    omega
  · rw [Namec.step, Option.isSome_map]
    exact request_isSome hi
  · exact hs.serial hret (Finset.nodup_toList _) fun i => Finset.mem_toList.2 (Finset.mem_univ i)

end

/-- Two processes create in a directory that is mounted upon by one that takes no files and one that does. -/
def twoCalls : Namec (Fin 3) Bool Bool where
  c := 0
  mount := some [(1, false), (2, true)]
  oexcl := fun _ => false
  mayCreate := fun _ _ => true
  mayOpen := fun _ _ => true
  made := id
  domount := id
  unmounted := fun _ => rfl

def bothLook : List Bool := [false, false, false, true, true, true, false, true, true, true, true]

theorem create_race_twoCalls :
    ∃ s, run twoCalls.step (twoCalls.init fun _ => none) bothLook = some s ∧
      (∀ i, s.pc i = .ret (.ok false)) ∧ twoCalls.opened s.file = some false ∧
      ∃ order : List Bool, order.Perm Finset.univ.toList ∧ Serial twoCalls order (twoCalls.init fun _ => none) s := by
  have key : ∀ s, run twoCalls.step (twoCalls.init fun _ => none) bothLook = some s → ∀ i,
    s.pc i = .ret (.ok false) := by
    intro s hs i
    cases hs
    cases i <;> rfl
  obtain ⟨s, hs⟩ : ∃ s, run twoCalls.step (twoCalls.init fun _ => none) bothLook = some s := ⟨_, rfl⟩
  obtain ⟨hreturned, -, -, hserial⟩ := create_race twoCalls _ _ hs
  have hret := key s hs
  exact ⟨s, hs, hret, (hreturned true _ (hret true)).1 false rfl, hserial fun i => ⟨_, hret i⟩⟩

end Node9.Create
