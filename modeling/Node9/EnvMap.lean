import Node9.Env

/-!
# The environment as finite maps

A group is a map from names to values, and the path of a qid stands for a name. No two pointers of the device are the
same: `own` tells of an allocation which group, which variable (by its path) and which of the two strings it was made
for.
-/

namespace Node9.Env
open Buf Keyed Function List
open Option hiding mem_map mem_map_of_mem
open Buffers (overwrite)

structure Var where
  name : Bytes
  path : UInt64
  value : Bytes

def Mem.var (m : Mem) (e : Evalue) : Var := ⟨m.str e.var, e.qid.path, e.val.elim [] m.str⟩

def St.view (s : St) (g : Nat) : List Var := (s.grp g).entries.map s.mem.var

def vals (l : List Var) (n : Bytes) : Option Bytes := (get Var.name l n).map Var.value

def names (l : List Var) (p : UInt64) : Option Bytes := (get Var.path l p).map Var.name

/-! ### What the device is for -/

/-- `n` groups, with the value of each name, and the name that each path stands for. -/
structure Map where
  val : Nat → Bytes → Option Bytes
  name : Nat → UInt64 → Option Bytes
  n : Nat

def St.map (s : St) : Map := ⟨fun g => vals (s.view g), fun g => names (s.view g), s.ngrp⟩

namespace Map
variable (A : Map)

def put (g : Nat) (n v : Bytes) :
    Map := { A with val := update A.val g (update (A.val g) n (some v)) }

def bind (g : Nat) (p : UInt64) (n : Bytes) : Map :=
  { A with name := update A.name g (update (A.name g) p (some n)) }

def del (g : Nat) (p : UInt64) (n : Bytes) : Map where
  val := update A.val g (update (A.val g) n none)
  name := update A.name g (update (A.name g) p none)
  n := A.n

def new (val : Bytes → Option Bytes) (name : UInt64 → Option Bytes) : Map where
  val := update A.val A.n val
  name := update A.name A.n name
  n := A.n + 1

end Map

/-- `OTRUNC` in a mode that permits writing. -/
def truncates (mode : UInt32) : Bool := mode &&& OTRUNC ≠ 0 && (mode &&& 3 = OWRITE || mode &&& 3 = ORDWR)

/-- `a` over what is at `offset` in `v`, with zeros in between if `v` ends before. -/
def overlay (v : Bytes) (offset : Nat) (a : Bytes) : Bytes :=
  overwrite (v ++ replicate (offset + a.length - v.length) 0) offset a

/-- What an action can return, and what it makes of the maps. -/
inductive Allowed (A : Map) : Action → Out → Map → Prop
  | newegrp : Allowed A .newegrp (.group A.n) (A.new (fun _ => none) fun _ => none)
  | opened {g n v p mode} : A.val g n = some v → A.name g p = some n →
      Allowed A (.open g n mode) (.chan p) (if truncates mode then A.put g n [] else A)
  | notOpened {g n mode e} : A.val g n = none ∨ openmode mode = false → Allowed A (.open g n mode) (.err e) A
  | created {g n p mode} : A.val g n = none → A.name g p = none →
      Allowed A (.create g n mode) (.chan p) ((A.put g n []).bind g p n)
  | reopened {g n v p mode} : A.val g n = some v → A.name g p = some n → mode &&& OEXCL = 0 →
      Allowed A (.create g n mode) (.chan p) (if truncates (mode ||| OTRUNC) then A.put g n [] else A)
  | notCreated {g n mode e} : openmode (mode &&& ~~~OEXCL) = false ∨ (A.val g n = none ∧ genbuf ≤ n.length) ∨
      (A.val g n ≠ none ∧ mode &&& OEXCL ≠ 0) → Allowed A (.create g n mode) (.err e) A
  | read {g p n v k offset} : A.name g p = some n → A.val g n = some v →
      Allowed A (.read g p k offset) (.data ((v.drop offset).take k)) A
  | notRead {g p k offset e} : A.name g p = none → Allowed A (.read g p k offset) (.err e) A
  | written {g p n v a offset} : A.name g p = some n → A.val g n = some v →
      Allowed A (.write g p a offset) (.count a.length) (A.put g n (overlay v offset a))
  | nothing {g p offset} : Allowed A (.write g p [] offset) (.count 0) A
  | notWritten {g p a offset e} : A.name g p = none ∨ Maxenvlen < offset + a.length →
      Allowed A (.write g p a offset) (.err e) A
  | removed {g p n} : A.name g p = some n → Allowed A (.remove g p) .done (A.del g p n)
  | notRemoved {g p e} : A.name g p = none → Allowed A (.remove g p) (.err e) A
  | copied {g nm} : (∀ n, (∃ p, nm p = some n) ↔ A.val g n ≠ none) →
      Allowed A (.copy g) (.group A.n) (A.new (A.val g) nm)

/-- No two variables of a group have the same name, or the same qid. -/
structure Unique (s : St) : Prop where
  name : ∀ g, ((s.view g).map Var.name).Nodup
  path : ∀ g, ((s.view g).map Var.path).Nodup

/-! ### Lists of variables -/

variable {l l₁ l₂ : List Var} {a b : Var} {s s' : St} {m m' : Mem} {own own' : Nat → Nat × UInt64 × Bool}
    {e e' : Evalue}
  {g g' : Nat} {k p : UInt64} {n v : Bytes} {es es₁ es₂ : List Evalue}
  {v' : Nat}

theorem map_update {α β γ : Type} [DecidableEq α] (f : α → Option β) (h : β → γ) (x : α) (o : Option β) :
    (fun y => (update f x o y).map h) = update (fun y => (f y).map h) x (o.map h) := by
  funext y
  by_cases hy : y = x
  · subst hy
    simp
  · simp [hy]

theorem vals_insert (h : ∀ a ∈ l₁ ++ l₂, a.name ≠ b.name) :
    vals (l₁ ++ b :: l₂) = update (vals (l₁ ++ l₂)) b.name (some b.value) := by
  unfold vals
  rw [get_insert h]
  exact map_update _ _ _ _

theorem names_insert (h : ∀ a ∈ l₁ ++ l₂, a.path ≠ b.path) :
    names (l₁ ++ b :: l₂) = update (names (l₁ ++ l₂)) b.path (some b.name) := by
  unfold names
  rw [get_insert h]
  exact map_update _ _ _ _

theorem vals_replace (h : ∀ a ∈ l₁ ++ l₂, a.name ≠ b.name) (hn : b.name = a.name) :
    vals (l₁ ++ b :: l₂) = update (vals (l₁ ++ a :: l₂)) a.name (some b.value) := by
  rw [vals_insert h, vals_insert (b := a) (by rwa [hn] at h), hn, update_idem]

theorem names_replace (h : ∀ a ∈ l₁ ++ l₂, a.path ≠ b.path) (hp : b.path = a.path) (hn : b.name = a.name) :
    names (l₁ ++ b :: l₂) = names (l₁ ++ a :: l₂) := by
  rw [names_insert h, names_insert (b := a) (by rwa [hp] at h), hp, hn]

theorem vals_remove (h : ∀ a ∈ l₁ ++ l₂, a.name ≠ b.name) :
    vals (l₁ ++ l₂) = update (vals (l₁ ++ b :: l₂)) b.name none := by
  unfold vals
  rw [get_remove h]
  exact map_update _ _ _ _

theorem names_remove (h : ∀ a ∈ l₁ ++ l₂, a.path ≠ b.path) :
    names (l₁ ++ l₂) = update (names (l₁ ++ b :: l₂)) b.path none := by
  unfold names
  rw [get_remove h]
  exact map_update _ _ _ _

theorem vals_of_mem (hnd : (l.map Var.name).Nodup) (ha : a ∈ l) : vals l a.name = some a.value := by
  rw [vals, get_of_mem hnd ha]
  rfl

theorem names_of_mem (hnd : (l.map Var.path).Nodup) (ha : a ∈ l) : names l a.path = some a.name := by
  rw [names, get_of_mem hnd ha]
  rfl

theorem vals_eq_none_iff : vals l n = none ↔ ∀ a ∈ l, a.name ≠ n := by
  rw [vals, map_eq_none_iff, get_eq_none_iff]

theorem names_eq_none_iff : names l p = none ↔ ∀ a ∈ l, a.path ≠ p := by
  rw [names, map_eq_none_iff, get_eq_none_iff]

/-! ### Memory and its owners -/

/-- The strings of an entry of the group `g` are its own. -/
structure Entry (m : Mem) (own : Nat → Nat × UInt64 × Bool) (g : Nat) (e : Evalue) : Prop where
  var_lt : e.var < m.fresh
  own_var : own e.var = (g, e.qid.path, false)
  val : ∀ v, e.val = some v → v < m.fresh ∧ own v = (g, e.qid.path, true)
  len : e.len = (e.val.elim [] m.str).length

/-- What was allocated stays as it is, unless it was for the variable with the path `k` of the group `g`. -/
structure Frame (m m' : Mem) (own own' : Nat → Nat × UInt64 × Bool) (g : Nat) (k : UInt64) : Prop where
  le : m.fresh ≤ m'.fresh
  own_eq : ∀ p < m.fresh, own' p = own p
  blk : ∀ p < m.fresh, (∀ b, own p ≠ (g, k, b)) → m'.blk p = m.blk p

theorem Frame.entry (hf : Frame m m' own own' g k) (he : Entry m own g' e) (hne : g' ≠ g ∨ e.qid.path ≠ k) :
    Entry m' own' g' e ∧ m'.var e = m.var e := by
  have hother (b : Bool) {p : Nat} (hp : own p = (g', e.qid.path, b)) : ∀ c, own p ≠ (g, k, c) := by
    intro c hc
    rw [hp, Prod.mk.injEq, Prod.mk.injEq] at hc
    rcases hne with h | h
    · exact h hc.1
    · exact h hc.2.1
  have hvar : m'.str e.var = m.str e.var := by
    rw [Mem.str, Mem.str, hf.blk _ he.var_lt (hother _ he.own_var)]
  have hval : e.val.elim [] m'.str = e.val.elim [] m.str := by
    cases hv : e.val with
    | none => rfl
    | some v =>
      obtain ⟨hlt, hown⟩ := he.val v hv
      rw [elim_some, elim_some, Mem.str, Mem.str, hf.blk v hlt (hother _ hown)]
  refine ⟨⟨lt_of_lt_of_le he.var_lt hf.le, ?_, fun v hv => ?_, ?_⟩, ?_⟩
  · rw [hf.own_eq _ he.var_lt, he.own_var]
  · obtain ⟨hlt, hown⟩ := he.val v hv
    exact ⟨lt_of_lt_of_le hlt hf.le, (hf.own_eq v hlt).trans hown⟩
  · rw [hval, he.len]
  · rw [Mem.var, Mem.var, hvar, hval]

structure Inv (s : St) (own : Nat → Nat × UInt64 × Bool) : Prop where
  entry : ∀ g, ∀ e ∈ (s.grp g).entries, Entry s.mem own g e
  path_le : ∀ g, ∀ e ∈ (s.grp g).entries, 0 < e.qid.path ∧ e.qid.path ≤ (s.grp g).path
  unused : ∀ g ≥ s.ngrp, (s.grp g).entries = []
  unique : Unique s

theorem view_split (h : (s.grp g).entries = es₁ ++ es ++ es₂) :
    s.view g = es₁.map s.mem.var ++ (es.map s.mem.var ++ es₂.map s.mem.var) := by
  rw [St.view, h, map_append, map_append, append_assoc]

/-- The variables with the path `k`, at one place of a group, become others. -/
structure Change (s : St) (own own' : Nat → Nat × UInt64 × Bool) (g : Nat) (mem : Mem) (eg : Egrp) (k : UInt64)
    (es₁ es new es₂ : List Evalue) : Prop where
  frame : Frame s.mem mem own own' g k
  old : (s.grp g).entries = es₁ ++ es ++ es₂
  key : ∀ e ∈ es, e.qid.path = k
  other : ∀ e ∈ es₁ ++ es₂, e.qid.path ≠ k
  entries : eg.entries = es₁ ++ new ++ es₂
  entry : ∀ e ∈ new, Entry mem own' g e ∧ e.qid.path = k
  path_le : (s.grp g).path ≤ eg.path ∧ (new ≠ [] → 0 < k ∧ k ≤ eg.path)
  live : g < s.ngrp

theorem Change.view {mem : Mem} {eg : Egrp} {new : List Evalue} {out : Out} (hs : Inv s own)
    (hc : Change s own own' g mem eg k es₁ es new es₂) :
    (s.set g mem eg out).view g = es₁.map s.mem.var ++ (new.map mem.var ++ es₂.map s.mem.var) := by
  have hsame : ∀ l, l ⊆ es₁ ++ es₂ → l.map mem.var = l.map s.mem.var := by
    intro l hl
    refine map_congr_left fun e he => ?_
    refine (hc.frame.entry (hs.entry g e ?_) (.inr (hc.other e (hl he)))).2
    rw [hc.old]
    have := hl he
    simp only [mem_append] at this ⊢
    tauto
  rw [St.view, St.set]
  simp only [update_self, hc.entries, map_append, append_assoc]
  rw [hsame es₁ (subset_append_left ..), hsame es₂ (subset_append_right ..)]

theorem Change.view_of_ne {mem : Mem} {eg : Egrp} {new : List Evalue} {out : Out} (hs : Inv s own)
    (hc : Change s own own' g mem eg k es₁ es new es₂) (hg : g' ≠ g) : (s.set g mem eg out).view g' = s.view g' := by
  rw [St.view, St.set, St.view]
  simp only [update_of_ne hg]
  exact map_congr_left fun e he => (hc.frame.entry (hs.entry g' e he) (.inl hg)).2

theorem Change.inv {mem : Mem} {eg : Egrp} {new : List Evalue} {out : Out} (hs : Inv s own)
    (hc : Change s own own' g mem eg k es₁ es new es₂)
    (hname : (((s.set g mem eg out).view g).map Var.name).Nodup)
    (hpath : (((s.set g mem eg out).view g).map Var.path).Nodup) : Inv (s.set g mem eg out) own' where
  entry g' e he := by
    by_cases hg : g' = g
    · subst hg
      simp only [St.set, update_self, hc.entries, mem_append] at he
      rcases he with (he | he) | he
      · refine (hc.frame.entry (hs.entry g' e ?_) (.inr (hc.other e (mem_append_left _ he)))).1
        rw [hc.old]
        simp [he]
      · exact (hc.entry e he).1
      · refine (hc.frame.entry (hs.entry g' e ?_) (.inr (hc.other e (mem_append_right _ he)))).1
        rw [hc.old]
        simp [he]
    · simp only [St.set, update_of_ne hg] at he
      exact (hc.frame.entry (hs.entry g' e he) (.inl hg)).1
  path_le g' e he := by
    by_cases hg : g' = g
    · subst hg
      simp only [St.set, update_self, hc.entries, mem_append] at he ⊢
      have hold : e ∈ (s.grp g').entries → 0 < e.qid.path ∧ e.qid.path ≤ eg.path := fun he =>
        ⟨(hs.path_le g' e he).1, UInt64.le_trans (hs.path_le g' e he).2 hc.path_le.1⟩
      rcases he with (he | he) | he
      · exact hold (by rw [hc.old]; simp [he])
      · rw [(hc.entry e he).2]
        exact hc.path_le.2 (ne_nil_of_mem he)
      · exact hold (by rw [hc.old]; simp [he])
    · simp only [St.set, update_of_ne hg] at he ⊢
      exact hs.path_le g' e he
  unused g' hg' := by
    have hne : g' ≠ g := by
      rintro rfl
      exact absurd hc.live (Nat.not_lt_of_le hg')
    simp only [St.set, update_of_ne hne]
    exact hs.unused g' hg'
  unique := by
    refine ⟨fun g' => ?_, fun g' => ?_⟩
    · by_cases hg : g' = g
      · exact hg ▸ hname
      · rw [hc.view_of_ne hs hg]
        exact hs.unique.name g'
    · by_cases hg : g' = g
      · exact hg ▸ hpath
      · rw [hc.view_of_ne hs hg]
        exact hs.unique.path g'

theorem Change.map {mem : Mem} {eg : Egrp} {new : List Evalue} {out : Out} (hs : Inv s own)
    (hc : Change s own own' g mem eg k es₁ es new es₂) {l : List Var} (hl : (s.set g mem eg out).view g = l) :
    (s.set g mem eg out).map =
      ⟨update s.map.val g (vals l), update s.map.name g (names l), s.ngrp⟩ := by
  rw [St.map, Map.mk.injEq]
  refine ⟨?_, ?_, rfl⟩
  all_goals
    funext g'
    by_cases hg : g' = g
    · subst hg
      rw [update_self, hl]
    · rw [update_of_ne hg, hc.view_of_ne hs hg]
      rfl

theorem ne_of_nodup {α : Type} {f : Var → α} (h : ((l₁ ++ (a :: l₂)).map f).Nodup) : ∀ b ∈ l₁ ++ l₂, f b ≠ f a := by
  intro b hb heq
  rw [map_append, map_cons, nodup_middle, nodup_cons, ← map_append] at h
  exact h.1 (heq ▸ mem_map_of_mem hb)

theorem nodup_replace {α : Type} {f : Var → α} (h : ((l₁ ++ a :: l₂).map f).Nodup) (hf : f b = f a) :
    ((l₁ ++ b :: l₂).map f).Nodup := by
  rw [map_append, map_cons] at h ⊢
  rwa [hf]

theorem nodup_remove {α : Type} {f : Var → α} (h : ((l₁ ++ a :: l₂).map f).Nodup) : ((l₁ ++ l₂).map f).Nodup := by
  rw [map_append, map_cons, nodup_middle, nodup_cons, ← map_append] at h
  exact h.2

theorem Change.replace {mem : Mem} {eg : Egrp} {out : Out} (hs : Inv s own)
    (hc : Change s own own' g mem eg k es₁ [e] [e'] es₂) (hn : (mem.var e').name = (s.mem.var e).name) :
    Inv (s.set g mem eg out) own' ∧
      (s.set g mem eg out).map = s.map.put g (s.mem.var e).name (mem.var e').value := by
  have hview := @Change.view _ _ _ _ _ _ _ _ _ _ _ out hs hc
  have hold := view_split hc.old
  simp only [map_cons, map_nil, cons_append, nil_append] at hview hold
  have hp : (mem.var e').path = (s.mem.var e).path :=
    (hc.entry e' mem_cons_self).2.trans (hc.key e mem_cons_self).symm
  have hname := hs.unique.name g
  have hpath := hs.unique.path g
  rw [hold] at hname hpath
  refine ⟨hc.inv hs ?_ ?_, ?_⟩
  · rw [hview]
    exact nodup_replace hname hn
  · rw [hview]
    exact nodup_replace hpath hp
  · have hv := vals_replace (b := mem.var e') (hn.symm ▸ ne_of_nodup hname) hn
    have hm := names_replace (b := mem.var e') (hp.symm ▸ ne_of_nodup hpath) hp hn
    rw [hc.map hs hview, hv, hm, ← hold, Map.put, Map.mk.injEq]
    exact ⟨rfl, update_eq_self g s.map.name, rfl⟩

theorem Change.remove {mem : Mem} {eg : Egrp} {out : Out} (hs : Inv s own)
    (hc : Change s own own' g mem eg k es₁ [e] [] es₂) :
    Inv (s.set g mem eg out) own' ∧ (s.set g mem eg out).map = s.map.del g k (s.mem.var e).name := by
  have hview := @Change.view _ _ _ _ _ _ _ _ _ _ _ out hs hc
  have hold := view_split hc.old
  simp only [map_cons, map_nil, cons_append, nil_append] at hview hold
  have hp : (s.mem.var e).path = k := hc.key e mem_cons_self
  have hname := hs.unique.name g
  have hpath := hs.unique.path g
  rw [hold] at hname hpath
  refine ⟨hc.inv hs ?_ ?_, ?_⟩
  · rw [hview]
    exact nodup_remove hname
  · rw [hview]
    exact nodup_remove hpath
  · rw [hc.map hs hview, vals_remove (ne_of_nodup hname), names_remove (ne_of_nodup hpath), ← hold, hp]
    rfl

theorem Change.insert {mem : Mem} {eg : Egrp} {out : Out} (hs : Inv s own)
    (hc : Change s own own' g mem eg k es₁ [] [e'] es₂) (hv : (mem.var e').value = [])
    (hn : ∀ e ∈ (s.grp g).entries, (s.mem.var e).name ≠ (mem.var e').name) :
    Inv (s.set g mem eg out) own' ∧
      (s.set g mem eg out).map = (s.map.put g (mem.var e').name []).bind g k (mem.var e').name := by
  have hview := @Change.view _ _ _ _ _ _ _ _ _ _ _ out hs hc
  have hold := view_split hc.old
  simp only [map_cons, map_nil, cons_append, nil_append] at hview hold
  have hp : (mem.var e').path = k := (hc.entry e' mem_cons_self).2
  have hname := hs.unique.name g
  have hpath := hs.unique.path g
  have hnew : ∀ a ∈ es₁.map s.mem.var ++ es₂.map s.mem.var, a.name ≠ (mem.var e').name ∧
    a.path ≠ (mem.var e').path := by
    intro a ha
    rw [← map_append] at ha
    obtain ⟨e, he, rfl⟩ := mem_map.1 ha
    refine ⟨hn e ?_, hp ▸ hc.other e he⟩
    rw [hc.old, append_nil]
    exact he
  have hnodup {α : Type} {f : Var → α} (h : ((s.view g).map f).Nodup)
      (hne : ∀ a ∈ es₁.map s.mem.var ++ es₂.map s.mem.var, f a ≠ f (mem.var e')) :
      ((es₁.map s.mem.var ++ mem.var e' :: es₂.map s.mem.var).map f).Nodup := by
    rw [hold] at h
    rw [map_append, map_cons, nodup_middle, nodup_cons, ← map_append]
    refine ⟨fun hmem => ?_, h⟩
    obtain ⟨a, ha, heq⟩ := mem_map.1 hmem
    exact hne a ha heq
  refine ⟨hc.inv hs ?_ ?_, ?_⟩
  · rw [hview]
    exact hnodup hname fun a ha => (hnew a ha).1
  · rw [hview]
    exact hnodup hpath fun a ha => (hnew a ha).2
  · rw [hc.map hs hview, vals_insert fun a ha => (hnew a ha).1, names_insert fun a ha => (hnew a ha).2, ← hold, hv, hp]
    rfl

end Node9.Env
