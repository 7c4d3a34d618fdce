import Node9.FidTable
import Node9.Uqids

/-!
# Walking a fid (`Exwalk` in `exportfs.c`)

A request is served from its beginning to its end, on any table that other requests may have left: they can
still hold fids, also fids that were clunked meanwhile. A `Chan` is the number of its allocation in `chans`,
with the count of its references. `walk` is the walk of one name from a `Chan`, in the state `σ` of the devices
and of the name space, which it can change; the root of the export is `root`. `Luck` says whether `cclone`
succeeds and whether there is memory.

`Same` compares two tables by what the fids in them refer to, `Done` says what a walk leads to.
-/

namespace Node9.ExWalk
open FidTable Uqids Linked Steps Refs Function Option
open List hiding Chain

variable {σ δ : Type}

inductive Err
  | Enofid
  | Eopen
  | Edupfid
  | Enomem
  /-- the error of a device -/
  | errstr
deriving DecidableEq

structure Luck where
  /-- `cclone` succeeds -/
  clone : Bool
  /-- there is memory for the `Uqid` of the `i`-th name -/
  mem : Nat → Bool
  /-- there is memory for a `Fid` -/
  alloc : Bool

structure St (σ δ : Type) where
  world : σ
  tab : Tab
  uqids : Uqidtab
  chans : Nat → Chan δ
  /-- `c->r.ref` -/
  refs : Nat → Int
  nchan : Nat
  /-- the fids that requests have got hold of -/
  held : List Nat

/-- `eqchan(fs->root, c, 1)`. -/
def exisroot (root c : Chan δ) : Bool := root.qid.path = c.qid.path ∧ root.type = c.type ∧ root.dev = c.dev

namespace St
variable (s : St σ δ)

/-- A new `Chan`, `s.nchan`. -/
def newchan (c : Chan δ) : St σ δ :=
  { s with chans := update s.chans s.nchan c, refs := update s.refs s.nchan 1, nchan := s.nchan + 1 }

def cclose (c : Nat) : St σ δ := { s with refs := update s.refs c (s.refs c - 1) }

def freeuqid (u : Nat) : St σ δ := { s with uqids := s.uqids.freeuqid u }

def setFid (f : Nat) (chan qid : Option Nat) : St σ δ := { s with tab := s.tab.set f { s.tab.node f with chan, qid } }

/-- A name has been walked: `walk` has closed `c` for a new `Chan`, and the `Uqid` of `c` is freed. -/
def walked (w : σ) (c u : Nat) (c' : Chan δ) : St σ δ := (({ s with world := w }.newchan c').cclose c).freeuqid u

/-- `Exputfid`, with the `freeuqid` and the `cclose` at its end. -/
def putfid (f : Nat) : St σ δ :=
  match s.tab.Exputfid f with
  | (t, none) => { s with tab := t }
  | (t, some (c, q)) =>
    let s := { s with tab := t }
    let s := q.elim s s.freeuqid
    c.elim s s.cclose

end St

section
variable (walk : σ → Chan δ → CStr → σ × Option (Chan δ)) (root : Chan δ)

/-- How the loop of `Exwalk` ends: with the `Chan` and the `Uqid` after all names, with those before the
`i`-th name, or with the error of `uqidalloc`. -/
inductive End
  | full (c u : Nat)
  | short (i c u : Nat)
  | nomem

/-- The names from the `i`-th on; `none` if it does not return. -/
def walkNames (mem : Nat → Bool) : List CStr → Nat → St σ δ → Nat → Nat → List Qid → Option (St σ δ × End × List Qid)
  | [], _, s, c, u, wqid => some (s, .full c u, wqid)
  | name :: names, i, s, c, u, wqid =>
    if !exisroot root (s.chans c) ∨ (name.bytes ≠ [] ∧ name.bytes ≠ [46, 46]) then
      match walk s.world (s.chans c) name with
      | (w, none) => some ({ s with world := w }, .short i c u, wqid)
      | (w, some c') =>
        match (s.walked w c u c').uqids.uqidalloc c' (mem i) with
        | none => none
        | some (t, none) => some ({ s.walked w c u c' with uqids := t }, .nomem, wqid)
        | some (t, some u') =>
          walkNames mem names (i + 1) { s.walked w c u c' with uqids := t } s.nchan u' (wqid ++ [mkuqid c' (t.node u')])
    else walkNames mem names (i + 1) s c u (wqid ++ [mkuqid (s.chans c) (s.uqids.node u)])

def finish (fid newfid : UInt32) (alloc : Bool) (f : Nat) (s : St σ δ) (wqid : List Qid) :
    End → St σ δ × Except Err (List Qid)
  -- the error leaves `Exwalk`, with the reference to `f`
  | .nomem => (s, .error .Enomem)
  | .short i c u => (((s.cclose c).freeuqid u).putfid f, if i = 0 then .error .errstr else .ok wqid)
  | .full c u =>
    if newfid ≠ fid then
      match s.tab.Exmkfid newfid alloc with
      | (t, none) => ((({ s with tab := t }.cclose c).freeuqid u).putfid f, .error .Edupfid)
      | (t, some nf) => (({ s with tab := t }.setFid nf (some c) (some u)).putfid nf |>.putfid f, .ok wqid)
    else
      let n := s.tab.node f
      let s := n.chan.elim s s.cclose
      let s := n.qid.elim s s.freeuqid
      ((s.setFid f (some c) (some u)).putfid f, .ok wqid)

/-- The reply; `none` if it does not return. -/
def Exwalk (s : St σ δ) (fid newfid : UInt32) (wname : List CStr) (luck : Luck) :
    Option (St σ δ × Except Err (List Qid)) :=
  match s.tab.Exgetfid fid with
  | (_, none) => some (s, .error .Enofid)
  | (t, some f) =>
    let s := { s with tab := t }
    match (t.node f).chan, (t.node f).qid with
    | some c, some u =>
      if (s.chans c).copen then some (s.putfid f, .error .Eopen)
      -- `if(waserror()) return up->env->errstr`
      else if !luck.clone then some (s, .error .errstr)
      else
        let s' := { s.newchan (s.chans c).clone with uqids := s.uqids.incref u }
        match walkNames walk root luck.mem wname 0 s' s.nchan u [] with
        | none => none
        | some (s', e, wqid) => some (finish fid newfid luck.alloc f s' wqid e)
    -- a fid that is still being attached
    | _, _ => none

/-! ### The other requests -/

def Exattach (s : St σ δ) (fid : UInt32) (luck : Luck) : Option (St σ δ × Except Err Qid) :=
  match s.tab.Exmkfid fid luck.alloc with
  | (_, none) => some (s, .error .Edupfid)
  | (t, some f) =>
    let s := { s with tab := t }
    if !luck.clone then some ({ s with tab := s.tab.detach f }.putfid f, .error .errstr)
    else
      let c := s.nchan
      let s := (s.newchan root.clone).setFid f (some c) none
      match s.uqids.uqidalloc root.clone (luck.mem 0) with
      | none => none
      | some (q, none) => some ({ s with uqids := q, tab := s.tab.detach f }.putfid f, .error .Enomem)
      | some (q, some u) =>
        some (({ s with uqids := q }.setFid f (some c) (some u)).putfid f, .ok (mkuqid root.clone (q.node u)))

/-- The end of `Exopen` and `Excreate`: the fid gets the `Chan` that was opened. -/
def replace (s : St σ δ) (f : Nat) (c : Chan δ) (mem : Bool) : Option (St σ δ) :=
  match (s.tab.node f).chan, (s.tab.node f).qid with
  | some c₀, some u₀ =>
    let s' := s.newchan c
    match s'.uqids.uqidalloc c mem with
    | none => none
    | some (q, none) => some ({ s' with uqids := q }.cclose s.nchan)
    | some (q, some u) => some ((({ s' with uqids := q }.freeuqid u₀).cclose c₀).setFid f (some s.nchan) (some u))
  -- a fid that is still being attached
  | _, _ => none

inductive Op (σ δ : Type)
  | attach (fid : UInt32) (luck : Luck)
  | walk (fid newfid : UInt32) (wname : List CStr) (luck : Luck)
  | get (fid : UInt32)
  | put (f : Nat)
  /-- `f->attached = 0`, of a clunk or a remove -/
  | detach (f : Nat)
  | replace (f : Nat) (c : Chan δ) (mem : Bool)
  /-- what else happens to the files -/
  | world (w : σ)

def step (s : St σ δ) : Op σ δ → Option (St σ δ)
  | .attach fid luck => (Exattach root s fid luck).map Prod.fst
  | .walk fid newfid wname luck => (Exwalk walk root s fid newfid wname luck).map Prod.fst
  | .get fid =>
    match s.tab.Exgetfid fid with
    | (t, some f) => some { s with tab := t, held := f :: s.held }
    | (_, none) => some s
  | .put f => if f ∈ s.held then some ({ s with held := s.held.erase f }.putfid f) else none
  | .detach f => if f ∈ s.held then some { s with tab := s.tab.detach f } else none
  | .replace f c mem => if f ∈ s.held then replace s f c mem else none
  | .world w => some { s with world := w }

end

def init (w : σ) (c : Chan δ) : St σ δ := ⟨w, .empty, .empty, fun _ => c, fun _ => 0, 0, []⟩

/-! ### The references

`Heap` has the counts of the references to the `Chan`s (`B`) and to the `Uqid`s (`R`), `Owned` the fids that
have some of them. In the middle of a request there is one more of each than the fids have. -/

structure Heap (s : St σ δ) (B R : Nat → Nat) : Prop where
  refs : ∀ c, s.refs c = B c
  fresh : ∀ c, s.nchan ≤ c → B c = 0
  uq : UInv s.uqids R

structure Owned (s : St σ δ) (es cu uu : Nat → List Nat) (B R : Nat → Nat) : Prop where
  table : Table s.tab es
  ref : ∀ f, Live es f → (s.held.count f : Int) ≤ (s.tab.node f).ref
  held : ∀ f ∈ s.held, Live es f
  chan : Counted (Live es) (fun f => (s.tab.node f).chan) cu B
  qid : Counted (Live es) (fun f => (s.tab.node f).qid) uu R
  names : ∀ f c u, Live es f → (s.tab.node f).chan = some c → (s.tab.node f).qid = some u →
    (s.uqids.node u).For (s.chans c)

/-- A fid that is attached refers to a file. -/
def Full (t : Tab) (es : Nat → List Nat) : Prop :=
  ∀ f, Live es f → (t.node f).attached = true → (t.node f).chan ≠ none ∧ (t.node f).qid ≠ none

/-- The `Chan`s and the `Uqid`s that there are stay what they are. -/
structure Ext (s s' : St σ δ) : Prop where
  nchan : s.nchan ≤ s'.nchan
  chans : ∀ c < s.nchan, s'.chans c = s.chans c
  frame : Frame s.uqids s'.uqids

theorem Ext.trans {s s' s'' : St σ δ} (h : Ext s s') (h' : Ext s' s'') : Ext s s'' where
  nchan := le_trans h.nchan h'.nchan
  chans c hc := (h'.chans c (lt_of_lt_of_le hc h.nchan)).trans (h.chans c hc)
  frame := h.frame.trans h'.frame

theorem ext_newchan (s : St σ δ) (c : Chan δ) : Ext s (s.newchan c) where
  nchan := Nat.le_succ _
  chans d hd := by simp [St.newchan, ne_of_lt hd]
  frame := .refl _

theorem ext_cclose (s : St σ δ) (c : Nat) : Ext s (s.cclose c) := ⟨le_refl _, fun _ _ => rfl, .refl _⟩

theorem ext_freeuqid (s : St σ δ) (u : Nat) : Ext s (s.freeuqid u) := ⟨le_refl _, fun _ _ => rfl,
    UInv.freeuqid_frame⟩

theorem For_of_key {q q' : Uqid} {c : Chan δ} (hq : q'.key = q.key) (h : q.For c) : q'.For c := by
  simp only [Uqid.key, Prod.mk.injEq] at hq
  obtain ⟨htype, hdev, hold, -⟩ := hq
  exact ⟨htype.trans h.1, hdev.trans h.2.1, hold.trans h.2.2⟩

namespace Heap
variable {s : St σ δ} {B R : Nat → Nat} {c u : Nat}

theorem lt_nchan (h : Heap s B R) (hc : 0 < B c) : c < s.nchan := by
  by_contra hge
  have hz := h.fresh c (le_of_not_gt hge)
  omega

theorem newchan (h : Heap s B R) (ch : Chan δ) : Heap (s.newchan ch) (bump B s.nchan) R := by
  have hz := h.fresh s.nchan (le_refl _)
  refine ⟨fun d => ?_, fun d hd => ?_, h.uq⟩
  · by_cases hd : d = s.nchan
    · subst hd
      simp [St.newchan, bump, hz]
    · simp [St.newchan, bump, hd, h.refs]
  · have hne : d ≠ s.nchan := Nat.ne_of_gt hd
    simp only [bump, update_of_ne hne]
    exact h.fresh d (Nat.le_of_succ_le hd)

theorem cclose (h : Heap s (bump B c) R) : Heap (s.cclose c) B R := by
  refine ⟨fun d => ?_, fun d hd => Nat.le_zero.1 (le_trans le_bump (le_of_eq (h.fresh d hd))), h.uq⟩
  by_cases hd : d = c
  · subst hd
    simp [St.cclose, h.refs, bump]
  · simp [St.cclose, hd, h.refs, bump]

theorem freeuqid (h : Heap s B (bump R u)) : Heap (s.freeuqid u) B R := ⟨h.refs, h.fresh, h.uq.freeuqid⟩

end Heap

namespace Owned
variable {s s' : St σ δ} {es cu uu cu' uu' : Nat → List Nat} {B R B' R' : Nat → Nat} {f c u : Nat} {n : Fid}

section
variable (h : Owned s es cu uu B R)
include h

theorem ext (hh : Heap s B' R') (hB : ∀ c, B c ≤ B' c) (hR : ∀ u, R u ≤ R' u)
    (he : Ext s s') (htab : s'.tab = s.tab) (hheld : s'.held = s.held) : Owned s' es cu uu B R := by
  refine ⟨htab ▸ h.table, ?_, ?_, ?_, ?_, fun f c u hf hc hu => ?_⟩
  · rw [htab, hheld]
    exact h.ref
  · rw [hheld]
    exact h.held
  · rw [htab]
    exact h.chan
  · rw [htab]
    exact h.qid
  · rw [htab] at hc hu
    have hc' := hh.lt_nchan (lt_of_lt_of_le (h.chan.pos hf hc) (hB c))
    have hu' := hh.uq.lt_fresh (lt_of_lt_of_le (h.qid.pos hf hu) (hR u))
    rw [he.chans c hc']
    exact For_of_key (he.frame.2 u hu') (h.names f c u hf hc hu)

theorem mono (hB : ∀ c, B c ≤ B' c) (hR : ∀ u, R u ≤ R' u) : Owned s es cu uu B' R' :=
  ⟨h.table, h.ref, h.held, h.chan.mono hB, h.qid.mono hR, h.names⟩

section
variable (hf : Live es f)
include hf

theorem upd {held : List Nat} (hn : n.fid = (s.tab.node f).fid)
    (href : (held.count f : Int) ≤ n.ref) (hcount : ∀ g, g ≠ f → held.count g = s.held.count g)
    (hheld : ∀ g ∈ held, Live es g)
    (hchan : Counted (Live es) (update (fun f => (s.tab.node f).chan) f n.chan) cu' B')
    (hqid : Counted (Live es) (update (fun f => (s.tab.node f).qid) f n.qid) uu' R')
    (hnames : ∀ c u, n.chan = some c → n.qid = some u → (s.uqids.node u).For (s.chans c)) :
    Owned { s with tab := s.tab.set f n, held } es cu' uu' B' R' := by
  refine ⟨h.table.set hn, fun g hg => ?_, hheld, ?_, ?_, fun g c u hg hc hu => ?_⟩
  · by_cases hgf : g = f
    · subst hgf
      simpa [Tab.set] using href
    · simpa [Tab.set, hgf, hcount g hgf] using h.ref g hg
  · simp only [Tab.set, field_update Fid.chan]
    exact hchan
  · simp only [Tab.set, field_update Fid.qid]
    exact hqid
  · by_cases hgf : g = f
    · subst hgf
      simp only [Tab.set, update_self] at hc hu
      exact hnames c u hc hu
    · simp only [Tab.set, update_of_ne hgf] at hc hu
      exact h.names g c u hg hc hu

theorem set {held : List Nat} (hn : n.fid = (s.tab.node f).fid)
    (hchan : n.chan = (s.tab.node f).chan) (hqid : n.qid = (s.tab.node f).qid) (href : (held.count f : Int) ≤ n.ref)
    (hcount : ∀ g, g ≠ f → held.count g = s.held.count g) (hheld : ∀ g ∈ held, Live es g) :
    Owned { s with tab := s.tab.set f n, held } es cu uu B R := by
  refine h.upd hf hn href hcount hheld ?_ ?_ fun c u hc hu => ?_
  · rw [hchan, update_eq_self]
    exact h.chan
  · rw [hqid, update_eq_self]
    exact h.qid
  · exact h.names f c u hf (hchan ▸ hc) (hqid ▸ hu)

theorem setFid (hchan : (s.tab.node f).chan = none)
    (hqid : (s.tab.node f).qid = none) (hfor : (s.uqids.node u).For (s.chans c)) :
    Owned (s.setFid f (some c) (some u)) es (update cu c (f :: cu c)) (update uu u (f :: uu u))
      (bump B c) (bump R u) := by
  refine h.upd hf rfl (h.ref f hf) (fun _ _ => rfl) h.held ?_ ?_ ?_
  · exact h.chan.assign hf hchan (by simp) fun g hg => by simp [hg]
  · exact h.qid.assign hf hqid (by simp) fun g hg => by simp [hg]
  · rintro c u ⟨⟩ ⟨⟩
    exact hfor

theorem setChan (hchan : (s.tab.node f).chan = none)
    (hqid : (s.tab.node f).qid = none) :
    Owned (s.setFid f (some c) none) es (update cu c (f :: cu c)) uu (bump B c) R := by
  refine h.upd hf rfl (h.ref f hf) (fun _ _ => rfl) h.held ?_ ?_ fun _ _ _ hu => nomatch hu
  · exact h.chan.assign hf hchan (by simp) fun g hg => by simp [hg]
  · simp only
    rw [← hqid, update_eq_self]
    exact h.qid

theorem setQid (hchan : (s.tab.node f).chan = some c)
    (hqid : (s.tab.node f).qid = none) (hfor : (s.uqids.node u).For (s.chans c)) :
    Owned (s.setFid f (some c) (some u)) es cu (update uu u (f :: uu u)) B (bump R u) := by
  refine h.upd hf rfl (h.ref f hf) (fun _ _ => rfl) h.held ?_ ?_ ?_
  · simp only
    rw [← hchan, update_eq_self]
    exact h.chan
  · exact h.qid.assign hf hqid (by simp) fun g hg => by simp [hg]
  · rintro c u ⟨⟩ ⟨⟩
    exact hfor

end

end

theorem replace {c₀ u₀ : Nat} (h : Owned s es cu uu (bump B c₀) (bump R u₀)) (hf : Live es f)
    (hchan : (s.tab.node f).chan = some c₀) (hqid : (s.tab.node f).qid = some u₀)
    (hfor : (s.uqids.node u).For (s.chans c)) :
    ∃ cu' uu', Owned (s.setFid f (some c) (some u)) es cu' uu' (bump B c) (bump R u) := by
  have hc := h.chan.clear (l := Live es) (o := update (fun f => (s.tab.node f).chan) f none) hf hchan (by simp)
    (fun _ _ => .rfl) fun g hg => by simp [hg]
  have hu := h.qid.clear (l := Live es) (o := update (fun f => (s.tab.node f).qid) f none) hf hqid (by simp)
    (fun _ _ => .rfl) fun g hg => by simp [hg]
  have hc' := hc.assign (o := update (fun f => (s.tab.node f).chan) f (some c)) (c := c) hf (by simp) (by simp)
    fun g hg => by simp [hg]
  have hu' := hu.assign (o := update (fun f => (s.tab.node f).qid) f (some u)) (c := u) hf (by simp) (by simp)
    fun g hg => by simp [hg]
  refine ⟨_, _, h.upd hf rfl (h.ref f hf) (fun _ _ => rfl) h.held hc' hu' ?_⟩
  rintro c u ⟨⟩ ⟨⟩
  exact hfor

theorem mkfid (h : Owned s es cu uu B R) {fid : UInt32} {alloc : Bool} {t : Tab} {nf : Nat}
    (hmk : s.tab.Exmkfid fid alloc = (t, some nf)) :
    nf = s.tab.fresh ∧ t.node = update s.tab.node nf ⟨fid.toInt32, 1, true, none, none⟩ ∧
      Owned { s with tab := t } (update es (hash fid) (nf :: es (hash fid))) cu uu B R := by
  unfold Tab.Exmkfid at hmk
  split at hmk <;> try cases hmk
  split at hmk <;> cases hmk
  have hfresh : ¬ Live es s.tab.fresh := fun ⟨h', hf⟩ => lt_irrefl _ (h.table.entry h' _ hf).1
  have hne : ∀ g, Live es g → g ≠ s.tab.fresh := fun g hg hgf => hfresh (hgf ▸ hg)
  refine ⟨rfl, rfl, h.table.push (by simp), fun g hg => ?_, fun g hg => ?_, ?_, ?_, fun g c u hg hc hu => ?_⟩
  · rw [live_push] at hg
    rcases hg with rfl | hg
    · have hz : s.held.count s.tab.fresh = 0 := count_eq_zero.2 fun hm => hfresh (h.held _ hm)
      simp [hz]
    · simpa [hne g hg] using h.ref g hg
  · rw [live_push]
    exact .inr (h.held g hg)
  · rw [live_push]
    exact h.chan.add (by simp) (fun g hg => by simp [hg]) hfresh
  · rw [live_push]
    exact h.qid.add (by simp) (fun g hg => by simp [hg]) hfresh
  · rw [live_push] at hg
    rcases hg with rfl | hg
    · simp at hc
    · simp only [update_of_ne (hne g hg)] at hc hu
      exact h.names g c u hg hc hu

theorem free (h : Owned s es cu uu B R) (hf : Live es f) (hn : n.fid = (s.tab.node f).fid) (hheld : f ∉ s.held) :
    ∃ es' cu' uu' B₀ R₀, (∀ g, Live es' g ↔ Live es g ∧ g ≠ f) ∧
      Owned { s with tab := ⟨(unlink Cell.next f s.tab.mem s.tab.last).1, (unlink Cell.next f s.tab.mem s.tab.last).2,
        update s.tab.node f n, s.tab.fresh⟩ } es' cu' uu' B₀ R₀ ∧
      ((s.tab.node f).chan = none → B = B₀) ∧ (∀ c, (s.tab.node f).chan = some c → B = bump B₀ c) ∧
      ((s.tab.node f).qid = none → R = R₀) ∧ ∀ u, (s.tab.node f).qid = some u → R = bump R₀ u := by
  obtain ⟨b, hb⟩ := hf
  have hf : Live es f := ⟨b, hb⟩
  have hlive : ∀ g, Live (update es b ((es b).erase f)) g ↔ Live es g ∧ g ≠ f := fun g => by
    rw [live_erase h.table hb]
  obtain ⟨cu', B₀, hchan, hB, hB'⟩ := h.chan.remove (o := fun g => (update s.tab.node f n g).chan) hf hlive
    fun g hg => by simp [hg]
  obtain ⟨uu', R₀, hqid, hR, hR'⟩ := h.qid.remove (o := fun g => (update s.tab.node f n g).qid) hf hlive
    fun g hg => by simp [hg]
  refine ⟨_, cu', uu', B₀, R₀, hlive, ⟨h.table.unlink hb hn, fun g hg => ?_, fun g hg => ?_, hchan, hqid,
    fun g c u hg hc hu => ?_⟩,
    hB, hB', hR, hR'⟩
  · obtain ⟨hg, hgf⟩ := (hlive g).1 hg
    simpa [hgf] using h.ref g hg
  · refine (hlive g).2 ⟨h.held g hg, ?_⟩
    rintro rfl
    exact hheld hg
  · obtain ⟨hg, hgf⟩ := (hlive g).1 hg
    simp only [update_of_ne hgf] at hc hu
    exact h.names g c u hg hc hu

end Owned

/-! ### What holds between two requests -/

structure Rest (s : St σ δ) (es cu uu : Nat → List Nat) (B R : Nat → Nat) : Prop where
  heap : Heap s B R
  owned : Owned s es cu uu B R
  full : Full s.tab es

def Ok (s : St σ δ) : Prop := ∃ es cu uu B R, Rest s es cu uu B R

theorem ok_init (w : σ) (c : Chan δ) : Ok (init w c) := by
  refine ⟨fun _ => [], fun _ => [], fun _ => [], fun _ => 0, fun _ => 0, ⟨fun _ => rfl, fun _ _ => rfl, .empty⟩, ?_, ?_⟩
  · have hno : ∀ f, ¬ Live (fun _ => []) f := fun f ⟨_, hf⟩ => nomatch hf
    refine ⟨table_empty, fun f hf => absurd hf (hno f), nofun, ?_, ?_, fun f _ _ hf => absurd hf (hno f)⟩
    · exact ⟨fun f c => by simp [hno f], fun _ => nodup_nil, fun _ => le_refl _⟩
    · exact ⟨fun f c => by simp [hno f], fun _ => nodup_nil, fun _ => le_refl _⟩
  · rintro f ⟨_, hf⟩
    cases hf

theorem Full.set {t : Tab} {es : Nat → List Nat} (h : Full t es) {f : Nat} {n : Fid}
    (hn : n.attached = true → n.chan ≠ none ∧ n.qid ≠ none) : Full (t.set f n) es := by
  intro g hg ha
  by_cases hgf : g = f
  · subst hgf
    simp only [Tab.set, update_self] at ha ⊢
    exact hn ha
  · simp only [Tab.set, update_of_ne hgf] at ha ⊢
    exact h g hg ha

section
variable {s : St σ δ} {es cu uu : Nat → List Nat} {B R : Nat → Nat} {f : Nat}

theorem putfid_attached (ha : (s.tab.node f).attached = true) :
    s.putfid f = { s with tab := s.tab.set f { s.tab.node f with ref := (s.tab.node f).ref - 1 } } := by
  simp [St.putfid, Tab.Exputfid, ha]

theorem release {B₀ R₀ : Nat → Nat} {oc oq : Option Nat} (hh : Heap s B R) (ho : Owned s es cu uu B₀ R₀)
    (hfull : Full s.tab es)
    (hB : oc = none → B = B₀) (hB' : ∀ c, oc = some c → B = bump B₀ c) (hR : oq = none → R = R₀)
    (hR' : ∀ u, oq = some u → R = bump R₀ u) :
    Ok (oc.elim (oq.elim s s.freeuqid) (oq.elim s s.freeuqid).cclose) := by
  have hle : ∀ c, B₀ c ≤ B c := by
    cases oc with
    | none => exact fun c => le_of_eq (congrFun (hB rfl).symm c)
    | some c => exact fun d => hB' c rfl ▸ le_bump
  have hq : ∃ s', oq.elim s s.freeuqid = s' ∧ Heap s' B R₀ ∧ Owned s' es cu uu B₀ R₀ ∧ Full s'.tab es := by
    cases oq with
    | none => exact ⟨s, rfl, hR rfl ▸ hh, ho, hfull⟩
    | some u =>
      obtain rfl := hR' u rfl
      exact ⟨_, rfl, hh.freeuqid, ho.ext hh hle (fun _ => le_bump) (ext_freeuqid s u) rfl rfl, hfull⟩
  obtain ⟨s', hs', hh', ho', hfull'⟩ := hq
  rw [hs']
  cases oc with
  | none =>
    obtain rfl := hB rfl
    exact ⟨es, cu, uu, B, R₀, hh', ho', hfull'⟩
  | some c =>
    obtain rfl := hB' c rfl
    exact ⟨es, cu, uu, B₀, R₀, hh'.cclose, ho'.ext hh' hle (fun _ => le_refl _) (ext_cclose s' c) rfl rfl, hfull'⟩

theorem putfid_ok (hh : Heap s B R) (ho : Owned s es cu uu B R) (hfull : Full s.tab es) (hf : Live es f)
    (href : (s.held.count f : Int) + 1 ≤ (s.tab.node f).ref) : Ok (s.putfid f) := by
  by_cases hlast : (s.tab.node f).ref - 1 = 0 ∧ (s.tab.node f).attached = false
  · have hheld : f ∉ s.held := count_eq_zero.1 (by omega)
    obtain ⟨es', cu', uu', B₀, R₀, hlive, ho', hB, hB', hR, hR'⟩ :=
      ho.free (n := { s.tab.node f with ref := (s.tab.node f).ref - 1, chan := none }) hf rfl hheld
    have hfull' : Full ⟨(unlink Cell.next f s.tab.mem s.tab.last).1, (unlink Cell.next f s.tab.mem s.tab.last).2,
        update s.tab.node f { s.tab.node f with ref := (s.tab.node f).ref - 1, chan := none },
          s.tab.fresh⟩ es' := by
      intro g hg ha
      obtain ⟨hg, hgf⟩ := (hlive g).1 hg
      simp only [update_of_ne hgf] at ha ⊢
      exact hfull g hg ha
    simp only [St.putfid, Tab.Exputfid, if_pos hlast]
    have hh' : Heap { s with tab := ⟨(unlink Cell.next f s.tab.mem s.tab.last).1,
      (unlink Cell.next f s.tab.mem s.tab.last).2,
        update s.tab.node f { s.tab.node f with ref := (s.tab.node f).ref - 1, chan := none },
          s.tab.fresh⟩ } B R :=
      ⟨hh.refs, hh.fresh, hh.uq⟩
    exact release hh' ho' hfull' hB hB' hR hR'
  · simp only [St.putfid, Tab.Exputfid, if_neg hlast]
    refine ⟨es, cu, uu, B, R, ⟨hh.refs, hh.fresh, hh.uq⟩, ?_, hfull.set (hfull f hf)⟩
    exact ho.set hf rfl rfl rfl (by simp only; omega) (fun _ _ => rfl) ho.held

end

section
variable (walk : σ → Chan δ → CStr → σ × Option (Chan δ)) (root : Chan δ)

/-- One name: at the root of the export, `..` and the empty name stay there. -/
def walk1 (w : σ) (c : Chan δ) (name : CStr) : σ × Option (Chan δ) :=
  if !exisroot root c ∨ (name.bytes ≠ [] ∧ name.bytes ≠ [46, 46]) then walk w c name else (w, some c)

/-- The files along the longest prefix of the names that can be walked. -/
def reach : σ → Chan δ → List CStr → List (Chan δ)
  | _, _, [] => []
  | w, c, name :: names =>
    match walk1 walk root w c name with
    | (_, none) => []
    | (w, some c) => c :: reach w c names

end

/-- In the middle of `Exwalk`, which has the `Chan` `c` and the `Uqid` `u`. -/
structure Mid (s₀ : St σ δ) (B R : Nat → Nat) (s : St σ δ) (c u : Nat) : Prop where
  tab : s.tab = s₀.tab
  held : s.held = s₀.held
  ext : Ext s₀ s
  heap : Heap s (bump B c) (bump R u)
  names : (s.uqids.node u).For (s.chans c)
  reports : Reports s₀.uqids (s.chans c) (mkuqid (s.chans c) (s.uqids.node u))

/-- How the loop ends that starts with `c` and `u` and has `cs` to go through. -/
def Ends (s₀ : St σ δ) (B R : Nat → Nat) (mem : Nat → Bool) (s : St σ δ) (c u i n : Nat) (cs : List (Chan δ))
    (qs : List Qid)
    (s' : St σ δ) : End → Prop
  | .full c' u' =>
    Mid s₀ B R s' c' u' ∧ List.Forall₂ (Reports s₀.uqids) cs qs ∧ cs.length = n ∧ s'.chans c' = cs.getLast?.getD
    (s.chans c) ∧
      (s'.uqids.node u').newpath = (qs.getLast?.map Qid.path).getD (s.uqids.node u).newpath
  | .short j c' u' => Mid s₀ B R s' c' u' ∧ List.Forall₂ (Reports s₀.uqids) cs qs ∧ j = i + cs.length ∧ cs.length < n
  | .nomem => (∃ j, mem j = false) ∧ s'.tab = s₀.tab ∧ s'.held = s₀.held ∧ Ext s₀ s' ∧ ∃ c', Heap s' (bump B c') R

theorem getLast?_getD_cons {α : Type} (x d : α) (xs : List α) : (x :: xs).getLast?.getD d = xs.getLast?.getD x := by
  cases xs with
  | nil => rfl
  | cons y ys => simp [getLast?_cons]

section
variable {walk : σ → Chan δ → CStr → σ × Option (Chan δ)} {root : Chan δ} {s₀ s : St σ δ} {B R : Nat → Nat}
    {mem : Nat → Bool}
  {c u i : Nat}

theorem Mid.walked (m : Mid s₀ B R s c u) (w : σ) (ch : Chan δ) :
    Heap (s.walked w c u ch) (bump B s.nchan) R ∧ Ext s₀ (s.walked w c u ch) := by
  have hw : Heap { s with world := w } (bump B c) (bump R u) := ⟨m.heap.refs, m.heap.fresh, m.heap.uq⟩
  have hnew := hw.newchan ch
  rw [bump_comm] at hnew
  refine ⟨hnew.cclose.freeuqid, m.ext.trans (.trans ?_ (.trans (ext_cclose _ c) (ext_freeuqid _ u)))⟩
  have he := ext_newchan { s with world := w } ch
  exact ⟨he.nchan, he.chans, he.frame⟩

theorem mid_alloc {t : Uqidtab} {ch : Chan δ} {b : Bool} (h₀ : UInv s₀.uqids R) (htab : s.tab = s₀.tab)
    (hheld : s.held = s₀.held)
    (hext : Ext s₀ s) (hheap : Heap s (bump B c) R) (hch : s.chans c = ch)
    (ha : s.uqids.uqidalloc ch b = some (t, some u)) :
    Mid s₀ B R { s with uqids := t } c u := by
  obtain ⟨huq, hframe, hfor⟩ := hheap.uq.uqidalloc ha
  subst hch
  exact ⟨htab, hheld, ⟨hext.nchan, hext.chans, hext.frame.trans hframe⟩, ⟨hheap.refs, hheap.fresh, huq⟩, hfor,
    reports_alloc h₀ hheap.uq hext.frame ha⟩

theorem Ends.cons {s₁ s' : St σ δ} {c₁ u₁ n : Nat} {cs : List (Chan δ)} {qs : List Qid} {e : End}
    (h : Ends s₀ B R mem s₁ c₁ u₁ (i + 1) n cs qs s' e) (m : Mid s₀ B R s₁ c₁ u₁) :
    Ends s₀ B R mem s c u i (n + 1) (s₁.chans c₁ :: cs) (mkuqid (s₁.chans c₁) (s₁.uqids.node u₁) :: qs) s' e := by
  cases e with
  | full c' u' =>
    obtain ⟨m', hrep, hlen, hlast, hpath⟩ := h
    refine ⟨m', .cons m.reports hrep, by simp [hlen], ?_, ?_⟩
    · rw [getLast?_getD_cons]
      exact hlast
    · rw [← getLast?_map, map_cons, getLast?_getD_cons, getLast?_map]
      exact hpath
  | short j c' u' =>
    obtain ⟨m', hrep, hj, hlt⟩ := h
    refine ⟨m', .cons m.reports hrep, ?_, ?_⟩
    · rw [hj, length_cons]
      omega
    · rw [length_cons]
      omega
  | nomem => exact h

theorem walkNames_spec (h₀ : UInv s₀.uqids R) {s' : St σ δ} {e : End} {l : List Qid} (names : List CStr) (i : Nat)
    (wqid : List Qid) (m : Mid s₀ B R s c u) (hrun : walkNames walk root mem names i s c u wqid = some (s', e, l)) :
    ∃ qs, l = wqid ++ qs ∧ Ends s₀ B R mem s c u i names.length
    (reach walk root s.world (s.chans c) names) qs s' e := by
  induction names generalizing s c u i wqid with
  | nil =>
    cases hrun
    exact ⟨[], by simp, m, .nil, rfl, rfl, rfl⟩
  | cons name names ih =>
    simp only [walkNames] at hrun
    simp only [reach, walk1]
    split at hrun
    · next hmove =>
      rw [if_pos hmove]
      cases hw : walk s.world (s.chans c) name with
      | mk w o =>
        rw [hw] at hrun
        cases o with
        | none =>
          cases hrun
          refine ⟨[], by simp, ?_, .nil, rfl, Nat.succ_pos _⟩
          exact ⟨m.tab, m.held, ⟨m.ext.nchan, m.ext.chans, m.ext.frame⟩, ⟨m.heap.refs, m.heap.fresh, m.heap.uq⟩,
            m.names, m.reports⟩
        | some ch =>
          obtain ⟨hheap, hext⟩ := m.walked w ch
          dsimp only at hrun
          split at hrun <;> try cases hrun
          · next t ha =>
            obtain ⟨rfl, hmem⟩ := UInv.uqidalloc_none ha
            exact ⟨[], by simp, ⟨i, hmem⟩, m.tab, m.held, hext, _, hheap⟩
          next t u' ha =>
          have hch : (s.walked w c u ch).chans s.nchan = ch := update_self _ _ _
          have m' := mid_alloc (s := s.walked w c u ch) h₀ m.tab m.held hext hheap hch ha
          obtain ⟨qs, hl, hends⟩ := ih (i + 1) (wqid ++ [mkuqid ch (t.node u')]) m' hrun
          refine ⟨mkuqid ch (t.node u') :: qs, by simp [hl], ?_⟩
          have hcons := hends.cons (s := s) (c := c) (u := u) m'
          dsimp only at hcons
          rw [hch] at hcons
          exact hcons
    · next hstay =>
      rw [if_neg hstay]
      obtain ⟨qs, hl, hends⟩ := ih (i + 1) (wqid ++ [mkuqid (s.chans c) (s.uqids.node u)]) m hrun
      exact ⟨mkuqid (s.chans c) (s.uqids.node u) :: qs, by simp [hl], hends.cons m⟩

theorem walkNames_isSome (h₀ : UInv s₀.uqids R) (hsize : s₀.uqids.size < 65535) (names : List CStr) (i : Nat)
    (wqid : List Qid)
    (m : Mid s₀ B R s c u) : (walkNames walk root mem names i s c u wqid).isSome = true := by
  induction names generalizing s c u i wqid with
  | nil => rfl
  | cons name names ih =>
    simp only [walkNames]
    split
    · cases hw : walk s.world (s.chans c) name with
      | mk w o =>
        cases o with
        | none => rfl
        | some ch =>
          obtain ⟨hheap, hext⟩ := m.walked w ch
          have hsize' := (hheap.uq.size_eq h₀).symm ▸ hsize
          obtain ⟨⟨t, o⟩, ha⟩ := isSome_iff_exists.1 (hheap.uq.uqidalloc_isSome ch (mem i) hsize')
          dsimp only
          rw [ha]
          cases o with
          | none => rfl
          | some u' =>
            have hch : (s.walked w c u ch).chans s.nchan = ch := update_self _ _ _
            exact ih _ _ (mid_alloc (s := s.walked w c u ch) h₀ m.tab m.held hext hheap hch ha)
    · exact ih _ _ m

end

/-! ### What the fids refer to -/

def St.file (s : St σ δ) (f : Nat) : Option (Chan δ) :=
  (s.tab.node f).chan.bind fun c => if 0 < s.refs c then some (s.chans c) else none

/-- The path of the qid that the client sees. -/
def St.qid (s : St σ δ) (f : Nat) : Option UInt64 :=
  (s.tab.node f).qid.bind fun u =>
    if u ∈ s.uqids.qids (uqidhash (s.uqids.node u).oldpath) then some (s.uqids.node u).newpath else none

structure Keeps (s s' : St σ δ) (f : Nat) : Prop where
  fid : (s'.tab.node f).fid = (s.tab.node f).fid
  attached : (s'.tab.node f).attached = (s.tab.node f).attached
  file : s'.file f = s.file f
  qid : s'.qid f = s.qid f

/-- The same fids, with the same files and qids. -/
def Same (s s' : St σ δ) : Prop :=
  (∀ f, f ∈ s'.tab.entries ↔ f ∈ s.tab.entries) ∧ ∀ f ∈ s.tab.entries, Keeps s s' f

def InUse (s : St σ δ) (fid : UInt32) : Prop := ∃ g ∈ s.tab.entries, (s.tab.node g).fid = fid.toInt32

/-- `f` is a fid for `fid` that refers to the last of the files `cs`, or to `c` if there is none. -/
structure Refers (s s' : St σ δ) (f : Nat) (fid : UInt32) (c : Chan δ) (old : Option UInt64) (cs : List (Chan δ))
    (qs : List Qid) : Prop where
  mem : f ∈ s'.tab.entries
  fid : (s'.tab.node f).fid = fid.toInt32
  attached : (s'.tab.node f).attached = true
  file : s'.file f = some (cs.getLast?.getD c)
  qid : s'.qid f = (qs.getLast?.map Qid.path).or old
  reports : List.Forall₂ (Reports s.uqids) cs qs

/-- What the walk of `n` names from the fid `f` with the file `c` leads to, if `cs` are the files along the
names that could be walked. -/
structure Done (s : St σ δ) (f : Nat) (fid newfid : UInt32) (c : Chan δ) (n : Nat) (cs : List (Chan δ)) (s' : St σ δ)
    (reply : Except Err (List Qid)) : Prop where
  moved : cs.length = n → newfid = fid → ∃ qs, reply = .ok qs ∧ Refers s s' f fid c (s.qid f) cs qs ∧
    (∀ g, g ∈ s'.tab.entries ↔ g ∈ s.tab.entries) ∧ ∀ g ∈ s.tab.entries, g ≠ f → Keeps s s' g
  made : cs.length = n → newfid ≠ fid → ¬ InUse s newfid → ∃ qs nf, reply = .ok qs ∧
    Refers s s' nf newfid c (s.qid f) cs qs ∧ nf ∉ s.tab.entries ∧
    (∀ g, g ∈ s'.tab.entries ↔ g = nf ∨ g ∈ s.tab.entries) ∧ ∀ g ∈ s.tab.entries, Keeps s s' g
  refused : cs.length = n → newfid ≠ fid → InUse s newfid → reply = .error .Edupfid ∧ Same s s'
  failed : cs = [] → n ≠ 0 → reply = .error .errstr ∧ Same s s'
  short : cs ≠ [] → cs.length < n → ∃ qs, reply = .ok qs ∧ List.Forall₂ (Reports s.uqids) cs qs ∧ Same s s'

section
variable {s s' : St σ δ} {es es' cu cu' uu uu' : Nat → List Nat} {B R B' R' : Nat → Nat} {f c u : Nat}

section
variable (h : Rest s es cu uu B R)
include h

theorem file_eq (hf : Live es f) (hc : (s.tab.node f).chan = some c) :
    s.file f = some (s.chans c) := by
  have hpos := h.owned.chan.pos hf hc
  have href : 0 < s.refs c := by
    rw [h.heap.refs]
    omega
  simp [St.file, hc, href]

theorem qid_eq (hf : Live es f) (hu : (s.tab.node f).qid = some u) :
    s.qid f = some (s.uqids.node u).newpath := by
  have hlive := (h.heap.uq.live_iff u).2 (h.owned.qid.pos hf hu)
  simp only [St.qid, hu, bind_some]
  exact if_pos hlive

theorem keeps (h' : Rest s' es' cu' uu' B' R') (he : Ext s s') (hf : Live es f)
    (hf' : Live es' f)
    (hfid : (s'.tab.node f).fid = (s.tab.node f).fid) (hatt : (s'.tab.node f).attached = (s.tab.node f).attached)
    (hchan : (s'.tab.node f).chan = (s.tab.node f).chan) (hqid : (s'.tab.node f).qid = (s.tab.node f).qid) :
    Keeps s s' f := by
  refine ⟨hfid, hatt, ?_, ?_⟩
  · cases hc : (s.tab.node f).chan with
    | none => simp [St.file, hchan, hc]
    | some c =>
      rw [file_eq h hf hc, file_eq h' hf' (hchan.trans hc), he.chans c (h.heap.lt_nchan (h.owned.chan.pos hf hc))]
  cases hu : (s.tab.node f).qid with
  | none => simp [St.qid, hqid, hu]
  | some u =>
    have hkey := he.frame.2 u (h.heap.uq.lt_fresh (h.owned.qid.pos hf hu))
    simp only [Uqid.key, Prod.mk.injEq] at hkey
    rw [qid_eq h hf hu, qid_eq h' hf' (hqid.trans hu), hkey.2.2.2]

theorem same (h' : Rest s' es cu' uu' B' R') (he : Ext s s')
    (hnode : ∀ g, ∃ r, s'.tab.node g = { s.tab.node g with ref := r }) : Same s s' := by
  refine ⟨fun g => ?_, fun g hg => ?_⟩
  · rw [h.owned.table.mem_entries, h'.owned.table.mem_entries]
  · have hg := h.owned.table.mem_entries.1 hg
    obtain ⟨r, hr⟩ := hnode g
    apply keeps h h' he hg hg <;> simp [hr]

end

theorem fid_of_sameFid {i : Int32} {fid : UInt32} (h : sameFid i fid = true) : i = fid.toInt32 := by
  have hi : i = i.toUInt32.toInt32 := by simp
  rw [hi] at h ⊢
  rw [(sameFid_iff.1 h).1]

theorem Exgetfid_some {t : Tab} {fid : UInt32} (h : Rest s es cu uu B R) (hget : s.tab.Exgetfid fid = (t, some f)) :
    Live es f ∧ (s.tab.node f).attached = true ∧ (s.tab.node f).fid = fid.toInt32 ∧
      t = s.tab.set f { s.tab.node f with ref := (s.tab.node f).ref + 1 } := by
  unfold Tab.Exgetfid at hget
  rw [h.owned.table.search_eq] at hget
  split at hget <;> try cases hget
  next g hfind =>
    dsimp only at hget
    split at hget <;> cases hget
    next ha =>
      have hsame := find?_some (p := fun f => sameFid (s.tab.node f).fid fid) hfind
      exact ⟨⟨_, mem_of_find?_eq_some hfind⟩, ha, fid_of_sameFid hsame, rfl⟩

theorem Rest.get (h : Rest s es cu uu B R) (hf : Live es f) :
    Rest { s with tab := s.tab.set f { s.tab.node f with ref := (s.tab.node f).ref + 1 } } es cu uu B R := by
  have href := h.owned.ref f hf
  refine ⟨⟨h.heap.refs, h.heap.fresh, h.heap.uq⟩, ?_, h.full.set (h.full f hf)⟩
  exact h.owned.set hf rfl rfl rfl (by simp only; omega) (fun _ _ => rfl) h.owned.held

theorem Rest.put (h : Rest s es cu uu B R) (hf : Live es f) (ha : (s.tab.node f).attached = true)
    (href : (s.held.count f : Int) + 1 ≤ (s.tab.node f).ref) : Rest (s.putfid f) es cu uu B R := by
  rw [putfid_attached ha]
  refine ⟨⟨h.heap.refs, h.heap.fresh, h.heap.uq⟩, ?_, h.full.set (h.full f hf)⟩
  exact h.owned.set hf rfl rfl rfl (by simp only; omega) (fun _ _ => rfl) h.owned.held

theorem putfid_ext (ha : (s.tab.node f).attached = true) : Ext s (s.putfid f) := by
  rw [putfid_attached ha]
  exact ⟨le_refl _, fun _ _ => rfl, .refl _⟩

theorem inUse_iff {fid : UInt32} (ht : Table s.tab es) (hfid : fid.toNat < 2 ^ 31) :
    InUse s fid ↔ ∃ g, s.tab.search fid s.tab.fresh (.bucket (hash fid)) = some g := by
  rw [ht.search_eq]
  constructor
  · rintro ⟨g, hg, hgf⟩
    obtain ⟨b, hb⟩ := ht.mem_entries.1 hg
    have hbucket := (ht.entry b g hb).2
    rw [hgf, UInt32.toUInt32_toInt32] at hbucket
    refine isSome_iff_exists.1 (find?_isSome.2 ⟨g, hbucket ▸ hb, ?_⟩)
    rw [hgf]
    exact sameFid_iff.2 ⟨rfl, hfid⟩
  · rintro ⟨g, hg⟩
    have hsame := find?_some (p := fun f => sameFid (s.tab.node f).fid fid) hg
    exact ⟨g, ht.mem_entries.2 ⟨_, mem_of_find?_eq_some hg⟩, fid_of_sameFid hsame⟩

theorem Rest.close (h : Rest s es cu uu B R) {s₁ : St σ δ} (m : Mid s B R s₁ c u) (hf : Live es f)
    (ha : (s.tab.node f).attached = true) (href : (s.held.count f : Int) + 1 ≤ (s.tab.node f).ref) :
    Rest (((s₁.cclose c).freeuqid u).putfid f) es cu uu B R ∧ Ext s (((s₁.cclose c).freeuqid u).putfid f) ∧
      (((s₁.cclose c).freeuqid u).putfid f).tab = s.tab.set f { s.tab.node f with ref := (s.tab.node f).ref - 1 } := by
  have hext : Ext s ((s₁.cclose c).freeuqid u) := m.ext.trans (.trans (ext_cclose s₁ c) (ext_freeuqid _ u))
  have hrest : Rest ((s₁.cclose c).freeuqid u) es cu uu B R := by
    refine ⟨m.heap.cclose.freeuqid, ?_, ?_⟩
    · exact h.owned.ext h.heap (fun _ => le_refl _) (fun _ => le_refl _) hext m.tab m.held
    · exact m.tab ▸ h.full
  have ha' : (((s₁.cclose c).freeuqid u).tab.node f).attached = true := by
    rw [← ha, ← m.tab]
    rfl
  refine ⟨hrest.put hf ha' ?_, hext.trans (putfid_ext ha'), ?_⟩
  · rw [← m.tab, ← m.held] at href
    exact href
  · rw [putfid_attached ha', ← m.tab]
    rfl

theorem Rest.move (h : Rest s es cu uu B R) {s₁ : St σ δ} {c₀ u₀ : Nat} (m : Mid s B R s₁ c u) (hf : Live es f)
    (hchan : (s.tab.node f).chan = some c₀) (hqid : (s.tab.node f).qid = some u₀) :
    ∃ cu' uu' B' R', Rest (((s₁.cclose c₀).freeuqid u₀).setFid f (some c) (some u)) es cu' uu' B' R' ∧
      Ext s (((s₁.cclose c₀).freeuqid u₀).setFid f (some c) (some u)) := by
  obtain ⟨B₀, rfl⟩ := exists_bump (h.owned.chan.pos hf hchan)
  obtain ⟨R₀, rfl⟩ := exists_bump (h.owned.qid.pos hf hqid)
  have hext : Ext s ((s₁.cclose c₀).freeuqid u₀) := m.ext.trans (.trans (ext_cclose s₁ c₀) (ext_freeuqid _ u₀))
  have hheap := m.heap
  rw [bump_comm, bump_comm (R := R₀)] at hheap
  have howned := h.owned.ext h.heap (fun _ => le_refl _) (fun _ => le_refl _) hext m.tab m.held
  have hlt := m.heap.uq.lt_fresh (bump_pos (R := bump R₀ u₀) (c := u))
  have hfor : (((s₁.cclose c₀).freeuqid u₀).uqids.node u).For (((s₁.cclose c₀).freeuqid u₀).chans c) :=
    For_of_key ((ext_freeuqid (s₁.cclose c₀) u₀).frame.2 u hlt) m.names
  obtain ⟨cu', uu', howned'⟩ := howned.replace hf (m.tab ▸ hchan) (m.tab ▸ hqid) hfor
  refine ⟨cu', uu', bump B₀ c, bump R₀ u, ⟨?_, howned', ?_⟩, ⟨hext.nchan, hext.chans, hext.frame⟩⟩
  · have hh := hheap.cclose.freeuqid
    exact ⟨hh.refs, hh.fresh, hh.uq⟩
  · have hfull : Full ((s₁.cclose c₀).freeuqid u₀).tab es := m.tab ▸ h.full
    exact hfull.set fun _ => ⟨by simp, by simp⟩

theorem Rest.make (h : Rest s es cu uu B R) {s₁ : St σ δ} {newfid : UInt32} {alloc : Bool} {t : Tab} {nf : Nat}
    (m : Mid s B R s₁ c u) (hmk : s₁.tab.Exmkfid newfid alloc = (t, some nf)) :
    ∃ cu' uu' B' R', Rest ({ s₁ with tab := t }.setFid nf (some c) (some u))
        (update es (hash newfid) (nf :: es (hash newfid))) cu' uu' B' R' ∧
      Ext s ({ s₁ with tab := t }.setFid nf (some c) (some u)) ∧ nf = s.tab.fresh ∧
      ({ s₁ with tab := t }.setFid nf (some c) (some u)).tab.node =
        update s.tab.node nf ⟨newfid.toInt32, 1, true, some c, some u⟩ := by
  have howned := h.owned.ext h.heap (fun _ => le_refl _) (fun _ => le_refl _) m.ext m.tab m.held
  obtain ⟨hnf, hnode, howned'⟩ := howned.mkfid hmk
  have hlive : Live (update es (hash newfid) (nf :: es (hash newfid))) nf := by
    rw [live_push]
    exact .inl rfl
  have hset := howned'.setFid (c := c) (u := u) hlive (by simp [hnode]) (by simp [hnode]) m.names
  have hnode' : ({ s₁ with tab := t }.setFid nf (some c) (some u)).tab.node =
      update s.tab.node nf ⟨newfid.toInt32, 1, true, some c, some u⟩ := by
    simp [St.setFid, Tab.set, hnode, m.tab]
  refine ⟨_, _, _, _, ⟨⟨m.heap.refs, m.heap.fresh, m.heap.uq⟩, hset, fun g hg hga => ?_⟩,
    ⟨m.ext.nchan, m.ext.chans, m.ext.frame⟩, by rw [hnf, m.tab], hnode'⟩
  rw [hnode'] at hga ⊢
  by_cases hgf : g = nf
  · subst hgf
    simp
  · rw [live_push] at hg
    simp only [update_of_ne hgf] at hga ⊢
    exact h.full g (hg.resolve_left hgf) hga

/-- `f->ref` is one more, as long as a request has the fid. -/
def St.hold (s : St σ δ) (f : Nat) : St σ δ :=
  { s with tab := s.tab.set f { s.tab.node f with ref := (s.tab.node f).ref + 1 } }

theorem node_hold_self (s : St σ δ) (f : Nat) :
    (s.hold f).tab.node f = { s.tab.node f with ref := (s.tab.node f).ref + 1 } := by simp [St.hold, Tab.set]

theorem node_hold (s : St σ δ) (f g : Nat) : ∃ r, (s.hold f).tab.node g = { s.tab.node g with ref := r } := by
  by_cases hg : g = f
  · subst hg
    exact ⟨(s.tab.node g).ref + 1, by simp [St.hold, Tab.set]⟩
  · exact ⟨(s.tab.node g).ref, by simp [St.hold, Tab.set, hg]⟩

theorem ext_hold (s : St σ δ) (f : Nat) : Ext s (s.hold f) := ⟨le_refl _, fun _ _ => rfl, .refl _⟩

theorem inUse_hold {fid : UInt32} (ht : Table s.tab es) : InUse (s.hold f) fid ↔ InUse s fid := by
  have ht' : Table (s.hold f).tab es := ht.set rfl
  simp only [InUse, ht.mem_entries, ht'.mem_entries]
  refine exists_congr fun g => and_congr_right fun _ => ?_
  obtain ⟨r, hr⟩ := node_hold s f g
  rw [hr]

section
variable (h : Rest s es cu uu B R)
include h

theorem Rest.gives_up {s₁ : St σ δ} (m : Mid (s.hold f) B R s₁ c u) (hf : Live es f)
    (ha : (s.tab.node f).attached = true) :
    Ok (((s₁.cclose c).freeuqid u).putfid f) ∧ Same s (((s₁.cclose c).freeuqid u).putfid f) := by
  have href := h.owned.ref f hf
  have hself := node_hold_self s f
  have hhold : Rest (s.hold f) es cu uu B R := h.get hf
  have href' : ((s.hold f).held.count f : Int) + 1 ≤ ((s.hold f).tab.node f).ref := by
    rw [hself]
    exact Int.add_le_add_right href 1
  obtain ⟨hrest, hext, htab⟩ := hhold.close m hf (by rw [hself]; exact ha) href'
  refine ⟨⟨_, _, _, _, _, hrest⟩, same h hrest ((ext_hold s f).trans hext) fun g => ?_⟩
  rw [htab]
  by_cases hg : g = f
  · subst hg
    exact ⟨(s.tab.node g).ref, by simp [Tab.set, hself]⟩
  · obtain ⟨r, hr⟩ := node_hold s f g
    exact ⟨r, by simp [Tab.set, hg, hr]⟩

theorem Rest.moves {s₁ : St σ δ} {c₀ u₀ : Nat} (m : Mid (s.hold f) B R s₁ c u)
    (hf : Live es f)
    (ha : (s.tab.node f).attached = true) (hchan : (s.tab.node f).chan = some c₀) (hqid : (s.tab.node f).qid = some u₀)
    {s' : St σ δ} (hs' : s' = (((s₁.cclose c₀).freeuqid u₀).setFid f (some c) (some u)).putfid f) :
    Ok s' ∧ (∀ g, g ∈ s'.tab.entries ↔ g ∈ s.tab.entries) ∧ (∀ g ∈ s.tab.entries, g ≠ f → Keeps s s' g) ∧
      (s'.tab.node f).fid = (s.tab.node f).fid ∧ (s'.tab.node f).attached = true ∧ s'.file f = some (s₁.chans c) ∧
      s'.qid f = some (s₁.uqids.node u).newpath := by
  have href := h.owned.ref f hf
  have hself := node_hold_self s f
  have hhold : Rest (s.hold f) es cu uu B R := h.get hf
  obtain ⟨cu', uu', B', R', hrest, hext⟩ := hhold.move m hf (by rw [hself]; exact hchan) (by rw [hself]; exact hqid)
  -- the fid after `f->chan = c` and `f->qid = qid`
  have hnode : ∀ g, (((s₁.cclose c₀).freeuqid u₀).setFid f (some c) (some u)).tab.node g =
      if g = f then { s.tab.node f with ref := (s.tab.node f).ref + 1, chan := some c, qid := some u }
        else s.tab.node g := by
    intro g
    have ht : ((s₁.cclose c₀).freeuqid u₀).tab = (s.hold f).tab := m.tab
    simp only [St.setFid, ht, hself, Tab.set]
    by_cases hg : g = f
    · simp [hg]
    · simp [hg, St.hold, Tab.set]
  have hnf := hnode f
  rw [if_pos rfl] at hnf
  have ha' : ((((s₁.cclose c₀).freeuqid u₀).setFid f (some c) (some u)).tab.node f).attached = true := by
    rw [hnf]
    exact ha
  have hput := hrest.put hf ha' (by
    rw [hnf]
    have hheld : (((s₁.cclose c₀).freeuqid u₀).setFid f (some c) (some u)).held = s.held := m.held
    rw [hheld]
    exact Int.add_le_add_right href 1)
  have hext' := (ext_hold s f).trans (hext.trans (putfid_ext ha'))
  rw [← hs'] at hput hext'
  rw [putfid_attached ha'] at hs'
  have hother : ∀ g, g ≠ f → s'.tab.node g = s.tab.node g := fun g hg => by
    rw [hs']
    simp only [Tab.set, update_of_ne hg, hnode g, if_neg hg]
  have hfinal : s'.tab.node f = { s.tab.node f with chan := some c, qid := some u } := by
    rw [hs']
    simp [Tab.set, hnf]
  have hlt := m.heap.uq.lt_fresh (bump_pos (R := R) (c := u))
  have hkey := (ext_freeuqid (s₁.cclose c₀) u₀).frame.2 u hlt
  simp only [Uqid.key, Prod.mk.injEq] at hkey
  refine ⟨⟨_, _, _, _, _, hput⟩, fun g => ?_, fun g hg hgf => ?_, by rw [hfinal], by rw [hfinal]; exact ha, ?_, ?_⟩
  · rw [h.owned.table.mem_entries, hput.owned.table.mem_entries]
  · have hg := h.owned.table.mem_entries.1 hg
    apply keeps h hput hext' hg hg <;> simp [hother g hgf]
  · rw [file_eq hput hf (by rw [hfinal]), hs']
    rfl
  · rw [qid_eq hput hf (by rw [hfinal]), hs']
    exact congrArg some hkey.2.2.2

theorem Rest.makes {s₁ : St σ δ} {newfid : UInt32} {alloc : Bool} {t : Tab} {nf : Nat}
    (m : Mid (s.hold f) B R s₁ c u) (hf : Live es f) (ha : (s.tab.node f).attached = true)
    (hmk : s₁.tab.Exmkfid newfid alloc = (t, some nf)) {s' : St σ δ}
    (hs' : s' = (({ s₁ with tab := t }.setFid nf (some c) (some u)).putfid nf).putfid f) :
    Ok s' ∧ nf ∉ s.tab.entries ∧ (∀ g, g ∈ s'.tab.entries ↔ g = nf ∨ g ∈ s.tab.entries) ∧
      (∀ g ∈ s.tab.entries, Keeps s s' g) ∧ (s'.tab.node nf).fid = newfid.toInt32 ∧ (s'.tab.node nf).attached = true ∧
      s'.file nf = some (s₁.chans c) ∧ s'.qid nf = some (s₁.uqids.node u).newpath := by
  have href := h.owned.ref f hf
  have hself := node_hold_self s f
  have hhold : Rest (s.hold f) es cu uu B R := h.get hf
  obtain ⟨cu', uu', B', R', hrest, hext, hnf, hnode⟩ := hhold.make m hmk
  have hne : ∀ g, Live es g → g ≠ nf := by
    rintro g ⟨b, hb⟩ rfl
    have hlt := (h.owned.table.entry b g hb).1
    rw [hnf] at hlt
    exact lt_irrefl _ hlt
  have hlive : ∀ g, Live (update es (hash newfid) (nf :: es (hash newfid))) g ↔ g = nf ∨ Live es g :=
    fun g => by
    rw [live_push]
  have hheld : ({ s₁ with tab := t }.setFid nf (some c) (some u)).held = s.held := m.held
  have hchans : ({ s₁ with tab := t }.setFid nf (some c) (some u)).chans = s₁.chans := rfl
  have huqids : ({ s₁ with tab := t }.setFid nf (some c) (some u)).uqids = s₁.uqids := rfl
  generalize { s₁ with tab := t }.setFid nf (some c) (some u) = s₂ at hs' hrest hext hnode hheld hchans huqids
  have hnode₂ : s₂.tab.node nf = ⟨newfid.toInt32, 1, true, some c, some u⟩ := by
    rw [hnode]
    simp
  have hzero : s₂.held.count nf = 0 := by
    rw [hheld]
    exact count_eq_zero.2 fun hm => hne nf (h.owned.held nf hm) rfl
  have ha₂ : (s₂.tab.node nf).attached = true := by rw [hnode₂]
  have hput₂ := hrest.put ((hlive nf).2 (.inl rfl)) ha₂ (by rw [hzero, hnode₂]; exact Int.le_refl 1)
  have hext₂ := hext.trans (putfid_ext ha₂)
  rw [putfid_attached ha₂] at hs' hput₂ hext₂
  have hnode₃ : (s₂.tab.set nf { s₂.tab.node nf with ref := (s₂.tab.node nf).ref - 1 }).node f =
    (s.hold f).tab.node f := by
    simp [Tab.set, hne f hf, hnode]
  have ha₃ : ((s₂.tab.set nf { s₂.tab.node nf with ref := (s₂.tab.node nf).ref - 1 }).node f).attached = true := by
    rw [hnode₃, hself]
    exact ha
  have hput := hput₂.put ((hlive f).2 (.inr hf)) ha₃ (by
    rw [hnode₃, hself]
    simp only [hheld]
    exact Int.add_le_add_right href 1)
  have hext' := (ext_hold s f).trans (hext₂.trans (putfid_ext ha₃))
  rw [← hs'] at hput hext'
  rw [putfid_attached ha₃] at hs'
  have hother : ∀ g, Live es g → ∃ r, s'.tab.node g = { s.tab.node g with ref := r } := by
    intro g hg
    rw [hs']
    by_cases hgf : g = f
    · subst hgf
      exact ⟨(s.tab.node g).ref, by simp [Tab.set, hne g hg, hnode, hself]⟩
    · obtain ⟨r, hr⟩ := node_hold s f g
      exact ⟨r, by simp [Tab.set, hgf, hne g hg, hnode, hr]⟩
  have hfinal : s'.tab.node nf = ⟨newfid.toInt32, 0, true, some c, some u⟩ := by
    rw [hs']
    simp [Tab.set, (hne f hf).symm, hnode₂]
  have hmem : ∀ g, g ∈ s'.tab.entries ↔ g = nf ∨ g ∈ s.tab.entries := fun g => by
    rw [hput.owned.table.mem_entries, h.owned.table.mem_entries]
    exact hlive g
  refine ⟨⟨_, _, _, _, _, hput⟩, fun hm => hne nf (h.owned.table.mem_entries.1 hm) rfl, hmem, fun g hg => ?_,
    by rw [hfinal], by rw [hfinal], ?_, ?_⟩
  · have hg := h.owned.table.mem_entries.1 hg
    obtain ⟨r, hr⟩ := hother g hg
    apply keeps h hput hext' hg ((hlive g).2 (.inr hg)) <;> simp [hr]
  · rw [file_eq hput ((hlive nf).2 (.inl rfl)) (by rw [hfinal]), hs']
    exact congrArg (fun f => some (f c)) hchans
  · rw [qid_eq hput ((hlive nf).2 (.inl rfl)) (by rw [hfinal]), hs']
    exact congrArg (fun q : Uqidtab => some (q.node u).newpath) huqids

theorem Rest.starts (hf : Live es f) (hchan : (s.tab.node f).chan = some c)
    (hqid : (s.tab.node f).qid = some u) :
    Mid (s.hold f) B R { (s.hold f).newchan (s.chans c).clone with uqids := s.uqids.incref u } s.nchan u := by
  have hpos := h.owned.qid.pos hf hqid
  have hheap := h.heap.newchan (s.chans c).clone
  have hext := ext_newchan s (s.chans c).clone
  have hnames : ((s.uqids.incref u).node u).For (s.chans c) := by
    have hframe := (UInv.incref_frame (t := s.uqids) (u := u)).2 u (h.heap.uq.lt_fresh hpos)
    exact For_of_key hframe (h.owned.names f c u hf hchan hqid)
  have hch : update s.chans s.nchan (s.chans c).clone s.nchan = (s.chans c).clone := update_self _ _ _
  refine ⟨rfl, rfl, ⟨hext.nchan, hext.chans, UInv.incref_frame⟩, ⟨hheap.refs, hheap.fresh, h.heap.uq.incref hpos⟩,
    ?_, ?_⟩
  · show ((s.uqids.incref u).node u).For (update s.chans s.nchan (s.chans c).clone s.nchan)
    rw [hch]
    exact hnames
  · show Reports s.uqids (update s.chans s.nchan (s.chans c).clone s.nchan) _
    simp only [St.newchan, St.hold, hch]
    exact reports_live h.heap.uq hpos UInv.incref_frame hnames

theorem Rest.finish {s₂ s₁ : St σ δ} {c₀ u₀ n c₂ u₂ : Nat} {fid newfid : UInt32} {luck : Luck}
    {cs : List (Chan δ)} {qs : List Qid} {e : End} (hf : Live es f) (ha : (s.tab.node f).attached = true)
    (hfid : (s.tab.node f).fid = fid.toInt32) (hchan : (s.tab.node f).chan = some c₀)
    (hqid : (s.tab.node f).qid = some u₀)
    (hends : Ends (s.hold f) B R luck.mem s₂ c₂ u₂ 0 n cs qs s₁ e)
    (hpath : (s₂.uqids.node u₂).newpath = (s.uqids.node u₀).newpath)
    {s' : St σ δ} {reply : Except Err (List Qid)} (hs' : finish fid newfid luck.alloc f s₁ qs e = (s', reply)) :
    Ok s' ∧ (newfid.toNat < 2 ^ 31 → Done s f fid newfid (s₂.chans c₂) n cs s' reply ∨
      ((∃ i, luck.mem i = false) ∨ luck.alloc = false) ∧ Same s s' ∧ ∃ e, reply = .error e) := by
  have hq := qid_eq h hf hqid
  cases e with
  | nomem =>
    cases hs'
    obtain ⟨hmem, htab, hheld, hext, c', hheap⟩ := hends
    have hhold : Rest (s.hold f) es cu uu B R := h.get hf
    have hrest : Rest s₁ es cu uu (bump B c') R := by
      refine ⟨hheap, ?_, htab ▸ hhold.full⟩
      have howned := hhold.owned.ext hhold.heap (fun _ => le_refl _) (fun _ => le_refl _) hext htab hheld
      exact howned.mono (fun _ => le_bump) fun _ => le_refl _
    refine ⟨⟨_, _, _, _, _, hrest⟩, fun _ => .inr ⟨.inl hmem, ?_, _, rfl⟩⟩
    refine same h hrest ((ext_hold s f).trans hext) fun g => ?_
    rw [htab]
    exact node_hold s f g
  | short j c' u' =>
    cases hs'
    obtain ⟨m, hrep, rfl, hlt⟩ := hends
    obtain ⟨hok, hsame⟩ := h.gives_up m hf ha
    refine ⟨hok, fun _ => .inl ⟨fun hlen => ?_, fun hlen => ?_, fun hlen => ?_, fun hcs _ => ?_, fun hcs _ => ?_⟩⟩
    · omega
    · omega
    · omega
    · subst hcs
      exact ⟨rfl, hsame⟩
    · have hne : 0 + cs.length ≠ 0 := by
        rw [zero_add]
        exact fun hz => hcs (length_eq_zero_iff.1 hz)
      exact ⟨qs, if_neg hne, hrep, hsame⟩
  | full c' u' =>
    obtain ⟨m, hrep, hlen, hlast, hpath'⟩ := hends
    rw [hpath] at hpath'
    have hqs : some (s₁.uqids.node u').newpath = (qs.getLast?.map Qid.path).or (s.qid f) := by
      rw [hpath', hq]
      cases qs.getLast?.map Qid.path <;> rfl
    have hlt : ¬ cs.length < n := by omega
    simp only [ExWalk.finish] at hs'
    by_cases hnew : newfid = fid
    · -- in place
      rw [if_neg (not_not.2 hnew)] at hs'
      have htab : s₁.tab.node f = (s.hold f).tab.node f := by rw [m.tab]
      rw [htab, node_hold_self, hchan, hqid] at hs'
      simp only [elim_some, Prod.mk.injEq] at hs'
      obtain ⟨hs', rfl⟩ := hs'
      obtain ⟨hok, hmem, hkeep, hfid', hatt, hfile, hqid'⟩ := h.moves m hf ha hchan hqid hs'.symm
      refine ⟨hok, fun _ => .inl ⟨fun _ _ => ?_, fun _ hne => absurd hnew hne, fun _ hne => absurd hnew hne, ?_, ?_⟩⟩
      · refine ⟨qs, rfl, ⟨?_, hfid'.trans hfid, hatt, hfile.trans (by rw [hlast]), hqid'.trans hqs, hrep⟩, hmem, hkeep⟩
        rw [hmem]
        exact h.owned.table.mem_entries.2 hf
      · rintro rfl hn
        exact absurd hlen.symm hn
      · exact fun _ hl => absurd hl hlt
    rw [if_pos hnew] at hs'
    have hcontra : ∀ {P : Prop}, cs = [] → n ≠ 0 → P := by
      rintro P rfl hn
      exact absurd hlen.symm hn
    cases hmk : s₁.tab.Exmkfid newfid luck.alloc with
    | mk t o =>
      rw [hmk] at hs'
      have huse : newfid.toNat < 2 ^ 31 → luck.alloc = true → (o = none ↔ InUse s newfid) := by
        intro hx halloc
        have ht : Table (s.hold f).tab es := h.owned.table.set rfl
        rw [← inUse_hold h.owned.table, inUse_iff ht hx]
        rw [m.tab, halloc] at hmk
        unfold Tab.Exmkfid at hmk
        rw [if_pos rfl] at hmk
        cases hsearch : (s.hold f).tab.search newfid (s.hold f).tab.fresh (.bucket (hash newfid)) with
        | none =>
          rw [hsearch] at hmk
          cases hmk
          simp
        | some g =>
          rw [hsearch] at hmk
          cases hmk
          simp
      cases o with
      | none =>
        obtain rfl := Exmkfid_none hmk
        simp only [Prod.mk.injEq] at hs'
        obtain ⟨rfl, rfl⟩ := hs'
        obtain ⟨hok, hsame⟩ := h.gives_up m hf ha
        refine ⟨hok, fun hx => ?_⟩
        cases halloc : luck.alloc with
        | false => exact .inr ⟨.inr rfl, hsame, _, rfl⟩
        | true =>
          have hin := (huse hx halloc).1 rfl
          exact .inl ⟨fun _ he => absurd he hnew, fun _ _ hno => absurd hin hno, fun _ _ _ => ⟨rfl, hsame⟩, hcontra,
            fun _ hl => absurd hl hlt⟩
      | some nf =>
        simp only [Prod.mk.injEq] at hs'
        obtain ⟨hs', rfl⟩ := hs'
        obtain ⟨hok, hnotin, hmem, hkeep, hfid', hatt, hfile, hqid'⟩ := h.makes m hf ha hmk hs'.symm
        refine ⟨hok, fun hx => .inl ⟨fun _ he => absurd he hnew, fun _ _ _ => ?_, fun _ _ hin => ?_, hcontra,
          fun _ hl => absurd hl hlt⟩⟩
        · exact ⟨qs, nf, rfl, ⟨(hmem nf).2 (.inl rfl), hfid', hatt,
            hfile.trans (by rw [hlast]), hqid'.trans hqs, hrep⟩,
            hnotin, hmem, hkeep⟩
        have halloc : luck.alloc = true := by
          by_contra hno
          rw [Bool.not_eq_true] at hno
          rw [hno] at hmk
          cases hmk
        have hnone := (huse hx halloc).2 hin
        cases hnone

end

/-- There is a request for memory that fails, or `cclone` fails. -/
def Luck.Bad (luck : Luck) : Prop := luck.clone = false ∨ (∃ i, luck.mem i = false) ∨ luck.alloc = false

end

section
variable {walk : σ → Chan δ → CStr → σ × Option (Chan δ)} {root : Chan δ} {s s' : St σ δ} {fid newfid : UInt32}
  {wname : List CStr} {luck : Luck} {reply : Except Err (List Qid)} {f : Nat} {c : Chan δ}

theorem Ok.exwalk (h : Ok s) (hs : Exwalk walk root s fid newfid wname luck = some (s', reply)) :
    Ok s' ∧ ((s.tab.Exgetfid fid).2 = some f → s.file f = some c → c.copen = false → newfid.toNat < 2 ^ 31 →
      Done s f fid newfid c.clone wname.length (reach walk root s.world c.clone wname) s' reply ∨
      luck.Bad ∧ Same s s' ∧ ∃ e, reply = .error e) := by
  obtain ⟨es, cu, uu, B, R, h⟩ := h
  unfold Exwalk at hs
  split at hs
  · next hget =>
    cases hs
    refine ⟨⟨_, _, _, _, _, h⟩, fun hf => ?_⟩
    rw [hget] at hf
    cases hf
  next t f' hget =>
  obtain ⟨hf, ha, hfid, rfl⟩ := Exgetfid_some h hget
  have hfeq : (s.tab.Exgetfid fid).2 = some f → f = f' := fun hf => by
    rw [hget] at hf
    exact (some.inj hf).symm
  have hself : (s.tab.set f' { s.tab.node f' with ref := (s.tab.node f').ref + 1 }).node f' = _ := node_hold_self s f'
  have hhold : Rest (s.hold f') es cu uu B R := h.get hf
  have ha' : ((s.hold f').tab.node f').attached = true := by
    simp only [St.hold, hself]
    exact ha
  simp only [hself] at hs
  split at hs
  · next c₀ u₀ hchan hqid =>
    have hfile := file_eq h hf hchan
    split at hs
    · -- the fid is open
      next hopen =>
      cases hs
      refine ⟨⟨_, _, _, _, _, hhold.put hf ha' ?_⟩, fun hf' hc hno => ?_⟩
      · have href := h.owned.ref f' hf
        simp only [St.hold, hself]
        exact Int.add_le_add_right href 1
      · rw [hfeq hf', hfile] at hc
        rw [← some.inj hc, hopen] at hno
        cases hno
    split at hs
    · next hclone =>
      cases hs
      refine ⟨⟨_, _, _, _, _, hhold⟩, fun _ _ _ _ => .inr ⟨.inl (by simpa using hclone), ?_, _, rfl⟩⟩
      exact same h hhold (ext_hold s f') (node_hold s f')
    have m := h.starts hf hchan hqid
    split at hs <;> try cases hs
    next s₁ e wqid hrun =>
      obtain ⟨qs, rfl, hends⟩ := walkNames_spec hhold.heap.uq wname 0 [] m hrun
      have hch : update s.chans s.nchan (s.chans c₀).clone s.nchan = (s.chans c₀).clone :=
        update_self _ _ _
      have hpath : ((s.uqids.incref u₀).node u₀).newpath = (s.uqids.node u₀).newpath := by
        simp [Uqidtab.incref, Uqidtab.setRef]
      obtain ⟨hok, hdone⟩ := h.finish hf ha hfid hchan hqid hends hpath (some.inj hs)
      refine ⟨hok, fun hf' hc hno hx => ?_⟩
      obtain rfl := hfeq hf'
      obtain rfl := some.inj (hfile.symm.trans hc)
      simp only [St.newchan, St.hold, hch] at hdone
      exact (hdone hx).imp id fun hbad => ⟨.inr hbad.1, hbad.2⟩
  · cases hs

theorem Ok.exwalk_isSome (h : Ok s) (hf : (s.tab.Exgetfid fid).2 = some f) (hsize : s.uqids.size < 65535) :
    (Exwalk walk root s fid newfid wname luck).isSome = true := by
  obtain ⟨es, cu, uu, B, R, h⟩ := h
  obtain ⟨t, ht⟩ : ∃ t, s.tab.Exgetfid fid = (t, some f) := ⟨_, Prod.ext rfl hf⟩
  obtain ⟨hlive, ha, -, rfl⟩ := Exgetfid_some h ht
  have hfull := h.full f hlive ha
  have hself : (s.tab.set f { s.tab.node f with ref := (s.tab.node f).ref + 1 }).node f = _ := node_hold_self s f
  have hhold : Rest (s.hold f) es cu uu B R := h.get hlive
  unfold Exwalk
  rw [ht]
  simp only [hself]
  split
  · next c₀ u₀ hchan hqid =>
    have m := h.starts hlive hchan hqid
    have hsome : (walkNames walk root luck.mem wname 0 _ _ _ []).isSome = true :=
      walkNames_isSome hhold.heap.uq hsize wname 0 [] m
    split
    · rfl
    split
    · rfl
    · split
      · next hnone =>
        obtain ⟨x, hrun⟩ := isSome_iff_exists.1 hsome
        cases hnone.symm.trans hrun
      · rfl
  · next hno =>
    obtain ⟨c₀, hchan⟩ := ne_none_iff_exists'.1 hfull.1
    obtain ⟨u₀, hqid⟩ := ne_none_iff_exists'.1 hfull.2
    exact absurd hqid (hno c₀ u₀ hchan)

theorem Ok.replace {ch : Chan δ} {mem : Bool} (h : Ok s) (hf : f ∈ s.held) (hs : replace s f ch mem = some s') :
    Ok s' := by
  obtain ⟨es, cu, uu, B, R, h⟩ := h
  have hlive := h.owned.held f hf
  have hheap := h.heap.newchan ch
  have hext := ext_newchan s ch
  unfold ExWalk.replace at hs
  split at hs <;> try cases hs
  next c₀ u₀ hchan hqid =>
    dsimp only at hs
    split at hs <;> cases hs
    · next q ha =>
      obtain ⟨rfl, -⟩ := UInv.uqidalloc_none ha
      have howned := h.owned.ext h.heap (fun _ => le_refl _) (fun _ => le_refl _) hext rfl rfl
      exact ⟨es, cu, uu, B, R, hheap.cclose, howned.ext hheap (fun _ => le_bump) (fun _ => le_refl _)
        (ext_cclose _ _) rfl rfl,
        h.full⟩
    · next q u ha =>
      have hch : (s.newchan ch).chans s.nchan = ch := update_self _ _ _
      have m := mid_alloc (s := s.newchan ch) h.heap.uq rfl rfl hext hheap hch ha
      obtain ⟨cu', uu', B', R', hrest, -⟩ := h.move m hlive hchan hqid
      exact ⟨es, cu', uu', B', R', hrest⟩

theorem Ok.exattach {reply : Except Err Qid} (h : Ok s) (hs : Exattach root s fid luck = some (s', reply)) : Ok s' := by
  obtain ⟨es, cu, uu, B, R, h⟩ := h
  unfold Exattach at hs
  split at hs
  · cases hs
    exact ⟨_, _, _, _, _, h⟩
  next t f hmk =>
  obtain ⟨hnf, hnode, howned⟩ := h.owned.mkfid hmk
  have hself : t.node f = ⟨fid.toInt32, 1, true, none, none⟩ := by rw [hnode, update_self]
  have hlive : Live (update es (hash fid) (f :: es (hash fid))) f := by
    rw [live_push]
    exact .inl rfl
  have hheap : Heap { s with tab := t } B R := ⟨h.heap.refs, h.heap.fresh, h.heap.uq⟩
  have hzero : s.held.count f = 0 := by
    refine count_eq_zero.2 fun hm => ?_
    obtain ⟨b, hb⟩ := h.owned.held f hm
    have hlt := (h.owned.table.entry b f hb).1
    omega
  -- the other fids that are attached refer to a file
  have hfull : ∀ n : Fid, (n.attached = true → n.chan ≠ none ∧ n.qid ≠ none) →
      Full (t.set f n) (update es (hash fid) (f :: es (hash fid))) := by
    intro n hn g hg ha
    by_cases hgf : g = f
    · subst hgf
      simp only [Tab.set, update_self] at ha ⊢
      exact hn ha
    · rw [live_push] at hg
      simp only [Tab.set, update_of_ne hgf, hnode] at ha ⊢
      exact h.full g (hg.resolve_left hgf) ha
  dsimp only at hs
  split at hs
  · cases hs
    have hset := howned.set (n := { t.node f with attached := false }) hlive rfl rfl rfl (howned.ref f hlive)
      (fun _ _ => rfl)
      howned.held
    refine putfid_ok ⟨h.heap.refs, h.heap.fresh, h.heap.uq⟩ hset
      (hfull _ fun ha => absurd ha Bool.false_ne_true) hlive ?_
    simp [Tab.detach, Tab.set, hzero, hself]
  have hnew := hheap.newchan root.clone
  have hext := ext_newchan { s with tab := t } root.clone
  have hset := (howned.ext hheap (fun _ => le_refl _) (fun _ => le_refl _) hext rfl rfl).setChan
    (c := s.nchan) hlive
    (by simp [St.newchan, hself]) (by simp [St.newchan, hself])
  have hfull' : ∀ a b : Fid, (b.attached = true → b.chan ≠ none ∧ b.qid ≠ none) →
      Full ((t.set f a).set f b) (update es (hash fid) (f :: es (hash fid))) := by
    intro a b hb
    have hidem : (t.set f a).set f b = t.set f b := by simp [Tab.set]
    rw [hidem]
    exact hfull b hb
  split at hs <;> cases hs
  · next q ha =>
    obtain ⟨rfl, -⟩ := UInv.uqidalloc_none ha
    have hset' := hset.set (n := { (t.set f { t.node f with chan := some s.nchan, qid := none }).node f with attached := false })
      hlive rfl rfl rfl (hset.ref f hlive) (fun _ _ => rfl) hset.held
    refine putfid_ok ⟨hnew.refs, hnew.fresh, hnew.uq⟩ hset'
      (hfull' _ _ fun ha => absurd ha Bool.false_ne_true) hlive ?_
    simp [Tab.detach, Tab.set, St.setFid, St.newchan, hzero, hself]
  next q u ha =>
  obtain ⟨huq, hframe, hfor⟩ := UInv.uqidalloc (R := R) hnew.uq ha
  have hext' : Ext (({ s with tab := t }.newchan root.clone).setFid f (some s.nchan) none)
      { ({ s with tab := t }.newchan root.clone).setFid f (some s.nchan) none with uqids := q } :=
    ⟨le_refl _, fun _ _ => rfl, hframe⟩
  have hset' := hset.ext ⟨hnew.refs, hnew.fresh, hnew.uq⟩ (fun _ => le_refl _)
    (fun _ => le_refl _) hext' rfl rfl
  have hch : update s.chans s.nchan root.clone s.nchan = root.clone := update_self _ _ _
  have hset'' := hset'.setQid (c := s.nchan) (u := u) hlive
    (by simp [St.setFid, Tab.set]) (by simp [St.setFid, Tab.set])
    (by simp only [St.setFid, St.newchan, hch]; exact hfor)
  refine putfid_ok ⟨hnew.refs, hnew.fresh, huq⟩ hset'' (hfull' _ _ fun _ => ⟨by simp, by simp⟩) hlive ?_
  simp [Tab.set, St.setFid, St.newchan, hzero, hself]

theorem Ok.step {op : Op σ δ} (h : Ok s) (hs : step walk root s op = some s') : Ok s' := by
  cases op with
  | attach fid luck =>
    obtain ⟨⟨s₁, reply⟩, hs₁, rfl⟩ := map_eq_some_iff.1 hs
    exact h.exattach hs₁
  | walk fid newfid wname luck =>
    obtain ⟨⟨s₁, reply⟩, hs₁, rfl⟩ := map_eq_some_iff.1 hs
    exact (h.exwalk (f := 0) (c := root) hs₁).1
  | get fid =>
    obtain ⟨es, cu, uu, B, R, h⟩ := h
    simp only [ExWalk.step] at hs
    split at hs <;> cases hs
    · next t f hget =>
      obtain ⟨hf, ha, -, rfl⟩ := Exgetfid_some h hget
      have href := h.owned.ref f hf
      refine ⟨es, cu, uu, B, R, ⟨h.heap.refs, h.heap.fresh, h.heap.uq⟩, ?_, h.full.set (h.full f hf)⟩
      refine h.owned.set hf rfl rfl rfl ?_ (fun g hg => by simp [hg.symm]) fun g hg => ?_
      · simp only [count_cons_self]
        omega
      · rcases mem_cons.1 hg with rfl | hg
        · exact hf
        · exact h.owned.held g hg
    · exact ⟨es, cu, uu, B, R, h⟩
  | put f =>
    obtain ⟨es, cu, uu, B, R, h⟩ := h
    simp only [ExWalk.step] at hs
    split at hs <;> cases hs
    next hmem =>
      have hf := h.owned.held f hmem
      have href := h.owned.ref f hf
      have hpos : 0 < s.held.count f := count_pos_iff.2 hmem
      have hcount : (s.held.erase f).count f = s.held.count f - 1 := count_erase_self
      have howned : Owned { s with held := s.held.erase f } es cu uu B R := by
        refine ⟨h.owned.table, fun g hg => ?_, fun g hg => h.owned.held g (mem_of_mem_erase hg), h.owned.chan,
          h.owned.qid,
          h.owned.names⟩
        have hle : (s.held.erase f).count g ≤ s.held.count g := erase_sublist.count_le g
        have hrg := h.owned.ref g hg
        simp only
        omega
      refine putfid_ok ⟨h.heap.refs, h.heap.fresh, h.heap.uq⟩ howned h.full hf ?_
      simp only
      omega
  | detach f =>
    obtain ⟨es, cu, uu, B, R, h⟩ := h
    simp only [ExWalk.step] at hs
    split at hs <;> cases hs
    next hmem =>
      have hf := h.owned.held f hmem
      refine ⟨es, cu, uu, B, R, ⟨h.heap.refs, h.heap.fresh, h.heap.uq⟩, ?_, h.full.set nofun⟩
      exact h.owned.set hf rfl rfl rfl (h.owned.ref f hf) (fun _ _ => rfl) h.owned.held
  | replace f c mem =>
    simp only [ExWalk.step] at hs
    split at hs
    · next hmem => exact h.replace hmem hs
    · cases hs
  | world w =>
    cases hs
    obtain ⟨es, cu, uu, B, R, h⟩ := h
    exact ⟨es, cu, uu, B, R, ⟨h.heap.refs, h.heap.fresh, h.heap.uq⟩,
      ⟨h.owned.table, h.owned.ref, h.owned.held, h.owned.chan, h.owned.qid, h.owned.names⟩, h.full⟩

theorem ok_run (walk : σ → Chan δ → CStr → σ × Option (Chan δ)) (root : Chan δ) {w : σ} {c₀ : Chan δ}
    {ops : List (Op σ δ)}
    (hrun : run (step walk root) (init w c₀) ops = some s) : Ok s :=
  (always_of_step (fun _ _ _ h hs => h.step hs) (ok_init w c₀)).last hrun

end

theorem exwalk_atomic (walk : σ → Chan δ → CStr → σ × Option (Chan δ)) (root : Chan δ) {w : σ} {c₀ : Chan δ}
    {ops : List (Op σ δ)} {s : St σ δ} (hrun : run (step walk root) (init w c₀) ops = some s) (fid newfid : UInt32)
    (wname : List CStr) (luck : Luck) {f : Nat} {c : Chan δ} (hf : (s.tab.Exgetfid fid).2 = some f)
    (hc : s.file f = some c)
    (hopen : c.copen = false) (hnew : newfid.toNat < 2 ^ 31) (hsize : s.uqids.size < 65535) :
    ∃ s' reply, Exwalk walk root s fid newfid wname luck = some (s', reply) ∧
      (Done s f fid newfid c.clone wname.length (reach walk root s.world c.clone wname) s' reply ∨
        luck.Bad ∧ Same s s' ∧ ∃ e, reply = .error e) := by
  have hok := ok_run walk root hrun
  obtain ⟨⟨s', reply⟩, hs⟩ := isSome_iff_exists.1 (hok.exwalk_isSome hf hsize)
  exact ⟨s', reply, hs, (hok.exwalk hs).2 hf hc hopen hnew⟩

/-! ### A directory with one file `a` -/

def dir : Chan Unit := ⟨1, 0, ⟨0, 0, 0x80⟩, false, ()⟩

def file : Chan Unit := ⟨1, 0, ⟨1, 0, 0⟩, false, ()⟩

def walkDir (_ : Unit) (c : Chan Unit) (name : CStr) : Unit × Option (Chan Unit) :=
  ((), if c.qid.path = 0 ∧ name.bytes = [97] then some file else none)

def plenty : Luck := ⟨true, fun _ => true, true⟩

def a : CStr := ⟨[97], by decide⟩

theorem exwalk_atomic_dir : ∃ s : St Unit Unit, run (step walkDir dir) (init () dir) [.attach 1 plenty] = some s ∧
    ∃ s' reply, Exwalk walkDir dir s 1 2 [a] plenty = some (s', reply) ∧
      (Done s 0 1 2 dir.clone 1 (reach walkDir dir s.world dir.clone [a]) s' reply ∨
        plenty.Bad ∧ Same s s' ∧ ∃ e, reply = .error e) := by
  refine ⟨_, rfl, ?_⟩
  have hrun : run (step walkDir dir) (init () dir) [.attach 1 plenty] = some _ := rfl
  exact exwalk_atomic walkDir dir hrun 1 2 [a] plenty rfl rfl rfl (by decide) (by decide)

/-- A walk that ends before its last name does not look at `newfid`, which is in use. -/
theorem exwalk_in_use_ok : ¬ ∀ (ops : List (Op Unit Unit)) (s s' : St Unit Unit) (fid newfid : UInt32)
    (wname : List CStr) (f : Nat)
    (reply : Except Err (List Qid)), run (step walkDir dir) (init () dir) ops = some s → (s.tab.Exgetfid fid).2 =
    some f →
    newfid ≠ fid → InUse s newfid → Exwalk walkDir dir s fid newfid wname plenty = some (s', reply) →
    ∃ e, reply = .error e := by
  intro h
  obtain ⟨e, he⟩ := h [.attach 1 plenty, .attach 2 plenty] _ _ 1 2 [a, a] 0 (.ok [⟨1, 0, 0⟩]) rfl rfl (by decide)
    ⟨1, by decide, rfl⟩ rfl
  cases he

end Node9.ExWalk
