import Node9.FidTable
import Node9.Lib.Refs

/-!
# The life of the fids of an export (`exportfs.c`)

The handlers of the requests that name a fid, any number of them at once. Where a request is in its handler is
a `Pc`, and what a handler does between two calls that other requests can notice is one step: `Exmkfid`,
`Exgetfid` and `Exputfid`, the calls that clone a `Chan` or go to a device, `cclose`, and the assignments to
`f->chan`. How a call ends is left open. A `Chan` is the number of its allocation; one that `dupopen` returns
stands for the reference to it that the handler gets. `walk` goes on with one `Chan` from name to name, and
`createdir` and `cunique` replace a `Chan` that the request has for itself, so that here it stays the same. A
handler that looks at the `chan` of a fid that has none yet gets no further.

`closes` counts how often a `Chan` has lost its last reference. `freed` has the fids that were freed, with the
`chan` that they had.
-/

namespace Node9.Fids
open FidTable Linked Steps Refs Function
open List hiding Chain

/-- The requests that start with `Exgetfid`. -/
inductive Kind
  | tclunk
  /-- with `newfid`, unless it is the same as `fid` -/
  | twalk (newfid : Option UInt32)
  | topen
  | tcreate
  /-- `Tread` and `Twrite` -/
  | tio
  | tstat
  | twstat
  | tremove

inductive Pc
  | idle
  /-- `Exattach`: `cclone(fs->root)` -/
  | attach (f : Nat)
  /-- `Exattach`: `uqidalloc` -/
  | alloc (f : Nat)
  /-- `Exgetfid` has returned `f` -/
  | got (k : Kind) (f : Nat)
  /-- `Exwalk`: `cclone(f->chan)` -/
  | clone (newfid : Option UInt32) (f : Nat)
  | walk (newfid : Option UInt32) (f c : Nat)
  /-- `Exwalk`: `Exmkfid(newfid)` has returned `nf` -/
  | made (f nf c : Nat)
  | putNew (f nf : Nat)
  /-- `Exread`, `Exwrite`: `c = f->chan`, in the call of the device -/
  | io (f c : Nat)
  /-- `exmount` has returned `c`; in the call of the device -/
  | mount (k : Kind) (f c : Nat)
  /-- `cclose(f->chan)` -/
  | swap (f c : Nat)
  /-- `f->chan = c` -/
  | assign (f c : Nat)
  /-- `cclose(c)`, then on to `f->attached = 0` or to `Exputfid(f)` -/
  | drop (f c : Nat) (detach : Bool)
  /-- `f->attached = 0` -/
  | detach (f : Nat)
  /-- `Exputfid(f)` -/
  | put (f : Nat)

structure St where
  tab : Tab
  /-- `c->r.ref` -/
  refs : Nat → Int
  closes : Nat → Nat
  /-- `c->flag & COPEN` -/
  copen : Nat → Bool
  nchan : Nat
  nreq : Nat
  pc : Nat → Pc
  freed : List (Nat × Option Nat)
  down : Bool

def init : St := ⟨.empty, fun _ => 0, fun _ => 0, fun _ => false, 0, 0, fun _ => .idle, [], false⟩

namespace St
variable (s : St)

def go (r : Nat) (p : Pc) : St := { s with pc := update s.pc r p }

/-- A new `Chan`, `s.nchan`. -/
def newchan : St := { s with refs := update s.refs s.nchan 1, nchan := s.nchan + 1 }

def incref (c : Nat) : St := { s with refs := update s.refs c (s.refs c + 1) }

def cclose (c : Nat) : St :=
  { s with
    refs := update s.refs c (s.refs c - 1)
    closes := if s.refs c - 1 = 0 then update s.closes c (s.closes c + 1) else s.closes }

def setChan (f c : Nat) : St := { s with tab := s.tab.set f { s.tab.node f with chan := some c } }

def setOpen (c : Nat) : St := { s with copen := update s.copen c true }

def free (f : Nat) (o : Option Nat) : St :=
  let s := { s with freed := (f, o) :: s.freed }
  match o with
  | some c => s.cclose c
  | none => s

/-- `Exputfid`, with the `cclose` at its end. -/
def putfid (f : Nat) : St :=
  match s.tab.Exputfid f with
  | (t, some (o, _)) => { s with tab := t }.free f o
  | (t, none) => { s with tab := t }

/-- `exmount(f->chan)`: a new `Chan` on a mount point, else the same with one more reference. -/
def exmount (r : Nat) (k : Kind) (f c : Nat) (mounted : Bool) : St :=
  if mounted then s.newchan.go r (.mount k f s.nchan) else (s.incref c).go r (.mount k f c)

end St

/-- The next step of the request `r`. The call succeeds if `ok`; `other` says that `exmount` finds a mount
point, that the device opens another `Chan`, that there is memory for a new fid, or that it is `uqidalloc` that
fails in `Exwalk`. -/
def reqStep (s : St) (r : Nat) (ok other : Bool) : Option St :=
  match s.pc r with
  | .idle => none
  | .attach f =>
    if ok then some (((s.setChan f s.nchan).newchan).go r (.alloc f)) else some (s.go r (.detach f))
  | .alloc f => some (s.go r (if ok then .put f else .detach f))
  | .got .tclunk f => some (s.go r (.detach f))
  | .got k f =>
    match (s.tab.node f).chan with
    | none => none
    | some c =>
      match k with
      | .tclunk => none
      | .twalk newfid => some (s.go r (if s.copen c then .put f else .clone newfid f))
      | .topen =>
        if s.copen c then some (s.go r (.put f))
        -- `exmount` comes before `waserror`
        else some (if ok then s.exmount r k f c other else s.go r .idle)
      | .tcreate =>
        if s.copen c then some (s.go r (.put f))
        else some (if ok then s.exmount r k f c other else s.go r (.put f))
      | .tio => some (s.go r (if s.copen c ∧ ok then .io f c else .put f))
      -- again before `waserror`
      | .tstat => some (if ok then s.exmount r k f c other else s.go r .idle)
      | .twstat => some (if ok then s.exmount r k f c other else s.go r (.put f))
      | .tremove => some (if ok then s.exmount r k f c other else s.go r (.detach f))
  | .clone newfid f =>
    if ok then some (s.newchan.go r (.walk newfid f s.nchan))
    -- `if(waserror()) return up->env->errstr`
    else some (s.go r .idle)
  | .walk newfid f c =>
    if ok then
      match newfid with
      | none => some (s.go r (.swap f c))
      | some fid =>
        match s.tab.Exmkfid fid other with
        | (t, some nf) => some ({ s with tab := t }.go r (.made f nf c))
        | (t, none) => some ({ s with tab := t }.go r (.drop f c false))
    -- no `waserror` is there for the error of `uqidalloc`
    else some (s.go r (if other then .idle else .drop f c false))
  | .made f nf c => some ((s.setChan nf c).go r (.putNew f nf))
  | .putNew f nf => some ((s.putfid nf).go r (.put f))
  | .io f _ => some (s.go r (.put f))
  | .mount .topen f c =>
    if ok then
      if other then some ((((s.cclose c).newchan).setOpen s.nchan).go r (.swap f s.nchan))
      else some ((s.setOpen c).go r (.swap f c))
    else some (s.go r (.drop f c false))
  | .mount .tcreate f c => some (if ok then (s.setOpen c).go r (.swap f c) else s.go r (.drop f c false))
  | .mount .tremove f c => some (s.go r (.drop f c true))
  | .mount _ f c => some (s.go r (.drop f c false))
  | .swap f c =>
    match (s.tab.node f).chan with
    | none => none
    | some c' => some ((s.cclose c').go r (.assign f c))
  | .assign f c => some ((s.setChan f c).go r (.put f))
  | .drop f c detach => some ((s.cclose c).go r (if detach then .detach f else .put f))
  | .detach f => some ({ s with tab := s.tab.detach f }.go r (.put f))
  | .put f => some ((s.putfid f).go r .idle)

inductive Op
  /-- a `Tattach` -/
  | attach (fid : UInt32) (alloc : Bool)
  /-- any other request -/
  | request (k : Kind) (fid : UInt32)
  | req (r : Nat) (ok other : Bool)
  /-- the connection is gone, and so are all its requests -/
  | hangup
  /-- the loop of `exfreefids` comes to `f` -/
  | freefid (f : Nat)

def step (s : St) : Op → Option St
  | .attach fid alloc =>
    if s.down then none
    else
      match s.tab.Exmkfid fid alloc with
      | (t, some f) => some ({ s with tab := t, nreq := s.nreq + 1 }.go s.nreq (.attach f))
      | (t, none) => some { s with tab := t }
  | .request k fid =>
    if s.down then none
    else
      match s.tab.Exgetfid fid with
      | (t, some f) => some ({ s with tab := t, nreq := s.nreq + 1 }.go s.nreq (.got k f))
      | (t, none) => some { s with tab := t }
  | .req r ok other => reqStep s r ok other
  | .hangup =>
    if ∀ r < s.nreq, (s.pc r matches .idle) = true then some { s with down := true } else none
  | .freefid f =>
    if s.down ∧ f ∈ s.tab.entries then
      let n := s.tab.node f
      let t := s.tab.detach f
      if n.ref = 0 then
        let (mem, last) := unlink .next f t.mem t.last
        some ({ s with tab := { t with mem, last } }.free f n.chan)
      else some { s with tab := t }
    else none

/-! ### What should hold -/

/-- The `Chan` that the request uses, or is going to use. -/
def Pc.uses (node : Nat → Fid) : Pc → Option Nat
  | .clone _ f => (node f).chan
  | .io _ c | .walk _ _ c | .made _ _ c | .mount _ _ c | .swap _ c | .assign _ c | .drop _ c _ => some c
  | _ => none

/-- The four calls that are not guarded succeed. A request that closes the `chan` of a fid to replace it finds
no other request that uses it without a reference of its own or is about to replace it, and no request looks at
the `chan` between the `cclose` and the assignment. -/
def Orderly (s : St) : Op → Prop
  | .req r ok other =>
    match s.pc r with
    | .clone _ _ => ok = true
    | .walk _ _ _ => ok = true ∨ other = false
    | .got .tclunk _ => True
    | .got .topen f => (∀ r' c, s.pc r' ≠ .assign f c) ∧ ∀ c, (s.tab.node f).chan = some c → s.copen c = false →
    ok = true
    | .got .tstat f => (∀ r' c, s.pc r' ≠ .assign f c) ∧ ok = true
    | .got _ f => ∀ r' c, s.pc r' ≠ .assign f c
    | .swap f _ => ∀ r', r' ≠ r → (∀ c, s.pc r' ≠ .io f c) ∧ (∀ x, s.pc r' ≠ .clone x f) ∧ ∀ c, s.pc r' ≠ .assign f c
    | _ => True
  | _ => True

def Pc.req : Pc → Req Nat Nat
  | .idle => {}
  | .attach f => { fids := [f], making := some f }
  | .alloc f | .got _ f | .detach f | .put f => { fids := [f] }
  | .clone _ f => { fids := [f], touches := some f, seen := some f }
  | .io f c => { fids := [f], touches := some f, looks := some (f, c), seen := some f }
  | .walk _ f c => { fids := [f], chan := some c, alone := true, seen := some f }
  | .made f nf c => { fids := [f, nf], chan := some c, alone := true, making := some nf, seen := some f }
  | .putNew f nf => { fids := [f, nf] }
  | .mount _ f c | .swap f c | .drop f c _ => { fids := [f], chan := some c, seen := some f }
  | .assign f c => { fids := [f], chan := some c, assigning := some f, seen := some f }

theorem Pc.req_ok (p : Pc) : p.req.Ok := by
  cases p <;> constructor <;> simp [Pc.req]

/-- The two fids of an `Exwalk` are not the same. -/
@[simp] def Pc.Apart : Pc → Prop
  | .putNew f nf => f ≠ nf
  | _ => True

/-- The reference counts of the `Chan`s. -/
structure Counts (refs : Nat → Int) (closes : Nat → Nat) (nchan : Nat) (own : Nat → List (Holder Nat Nat)) : Prop where
  refs : ∀ c, refs c = (own c).length
  closes : ∀ c, closes c = if c < nchan ∧ own c = [] then 1 else 0

/-- The fids that have been freed are not attached, and not in the table. -/
def Gone (t : Tab) (freed : List (Nat × Option Nat)) (es : Nat → List Nat) : Prop :=
  ∀ f o, (f, o) ∈ freed → f < t.fresh ∧ ¬ Live es f ∧ (t.node f).attached = false

structure Inv (s : St) (es : Nat → List Nat) (hold : Nat → List Nat) (sw : Nat → Option Nat)
    (own : Nat → List (Holder Nat Nat)) : Prop where
  table : Table s.tab es
  books : Books (Live es) (fun f => (s.tab.node f).ref) (fun f => (s.tab.node f).chan) (fun r => (s.pc r).req)
    (· < s.nchan)
    s.freed hold sw own
  counts : Counts s.refs s.closes s.nchan own
  pcs : ∀ r, (s.nreq ≤ r → s.pc r = .idle) ∧ (s.pc r).Apart
  gone : Gone s.tab s.freed es

def Ok (s : St) : Prop := ∃ es hold sw own, Inv s es hold sw own

theorem ok_init : Ok init := by
  refine ⟨fun _ => [], fun _ => [], fun _ => none, fun _ => [], table_empty, ?_, ⟨fun _ => rfl, fun _ => rfl⟩,
    fun _ => ⟨fun _ => rfl, trivial⟩,
    fun _ _ hf => nomatch hf⟩
  constructor <;> simp [init, Pc.req, Live]
  exact Pc.req_ok .idle

namespace Inv
variable {s : St} {es : Nat → List Nat} {hold : Nat → List Nat} {sw : Nat → Option Nat}
    {own : Nat → List (Holder Nat Nat)}
  {f c r : Nat}

end Inv

namespace Counts
variable {refs : Nat → Int} {closes : Nat → Nat} {nchan c : Nat} {own : Nat → List (Holder Nat Nat)}
    {x : Holder Nat Nat}
  {l : List (Holder Nat Nat)}

theorem newchan (h : Counts refs closes nchan own) : Counts (update refs nchan 1) closes (nchan + 1)
    (update own nchan [x]) := by
  refine ⟨fun d => ?_, fun d => ?_⟩
  · by_cases hd : d = nchan
    · simp [hd]
    · simp [hd, h.refs]
  · by_cases hd : d = nchan
    · subst hd
      simp [h.closes]
    · have hlt : d < nchan + 1 ↔ d < nchan := by omega
      simp [hd, h.closes, hlt]

theorem relist (h : Counts refs closes nchan own) (hc : own c ≠ []) (hl : l ≠ []) :
    Counts (update refs c l.length) closes nchan (update own c l) := by
  refine ⟨fun d => ?_, fun d => ?_⟩
  · by_cases hd : d = c
    · simp [hd]
    · simp [hd, h.refs]
  · by_cases hd : d = c
    · subst hd
      simp [h.closes, hc, hl]
    · simp [hd, h.closes]

theorem cclose {s : St} (h : Counts s.refs s.closes s.nchan own) (hlt : c < s.nchan) (hc : own c ≠ [])
    (hl : l.length + 1 = (own c).length) :
    Counts (s.cclose c).refs (s.cclose c).closes (s.cclose c).nchan (update own c l) := by
  have href : s.refs c - 1 = l.length := by rw [h.refs, ← hl]; omega
  refine ⟨fun d => ?_, fun d => ?_⟩
  · by_cases hd : d = c
    · subst hd
      simp [St.cclose, href]
    · simp [St.cclose, hd, h.refs]
  have hz : s.refs c - 1 = 0 ↔ l = [] := by
    rw [href, ← length_eq_zero_iff]
    omega
  simp only [St.cclose, hz]
  by_cases hd : d = c
  · subst hd
    by_cases hnil : l = []
    · simp [hnil, h.closes, hc, hlt]
    · simp [hnil, h.closes, hc]
  · split <;> simp [hd, h.closes]

theorem cclose_mem {s : St} (h : Counts s.refs s.closes s.nchan own) (hlt : c < s.nchan) (hx : x ∈ own c) :
    Counts (s.cclose c).refs (s.cclose c).closes (s.cclose c).nchan (update own c ((own c).erase x)) := by
  have hpos := length_pos_of_mem hx
  refine h.cclose hlt (ne_nil_of_mem hx) ?_
  rw [length_erase_of_mem hx]
  omega

theorem same (h : Counts refs closes nchan own) {y : Holder Nat Nat} (hy : y ∈ own c) :
    Counts refs closes nchan (update own c (x :: (own c).erase y)) := by
  have hpos := length_pos_of_mem hy
  have hlen : (x :: (own c).erase y).length = (own c).length := by
    rw [length_cons, length_erase_of_mem hy]
    omega
  have hu := h.relist (l := x :: (own c).erase y) (ne_nil_of_mem hy) (by simp)
  rwa [hlen, ← h.refs c, update_eq_self] at hu

end Counts

theorem req_update (pc : Nat → Pc) (r : Nat) (p : Pc) :
    (fun r' => (update pc r p r').req) = update (fun r' => (pc r').req) r p.req := by
  funext r'
  by_cases hr : r' = r
  · subst hr
    simp
  · simp [hr]

theorem lt_succ_eq (n : Nat) : (fun d => d < n + 1) = fun d => d = n ∨ d < n := by
  funext d
  exact propext (by omega)

theorem Gone.set {t : Tab} {freed : List (Nat × Option Nat)} {es : Nat → List Nat} (hg : Gone t freed es) {f : Nat}
    (hf : Live es f) (n : Fid) : Gone (t.set f n) freed es := by
  intro g o hm
  obtain ⟨hlt, hno, ha⟩ := hg g o hm
  have hne : g ≠ f := by
    rintro rfl
    exact hno hf
  exact ⟨hlt, hno, by simpa [Tab.set, hne] using ha⟩

theorem Gone.push {t : Tab} {freed : List (Nat × Option Nat)} {es : Nat → List Nat} (hg : Gone t freed es) {h : Nat}
    {mem : Cell → Option Nat} {last : Nat → Cell} (n : Fid) :
    Gone ⟨mem, last, update t.node t.fresh n, t.fresh + 1⟩ freed (update es h (t.fresh :: es h)) := by
  intro g o hm
  obtain ⟨hlt, hno, ha⟩ := hg g o hm
  rw [live_push]
  have hne : g ≠ t.fresh := ne_of_lt hlt
  exact ⟨Nat.lt_succ_of_lt hlt, by simp [hne, hno], by simpa [hne] using ha⟩

theorem Gone.free {t : Tab} {freed : List (Nat × Option Nat)} {es : Nat → List Nat} (hg : Gone t freed es)
    (ht : Table t es) {f h : Nat} (hf : f ∈ es h) {mem : Cell → Option Nat} {last : Nat → Cell} {n : Fid}
    (hn : n.attached = false) (o : Option Nat) :
    Gone ⟨mem, last, update t.node f n, t.fresh⟩ ((f, o) :: freed)
    (update es h ((es h).erase f)) := by
  intro g o' hm
  rw [live_erase ht hf]
  by_cases hgf : g = f
  · subst hgf
    exact ⟨(ht.entry h g hf).1, fun hc => hc.2 rfl, by simpa using hn⟩
  · have hm' : (g, o') ∈ freed := by simpa [hgf] using hm
    obtain ⟨hlt, hno, ha⟩ := hg g o' hm'
    exact ⟨hlt, fun hc => hno hc.1, by simpa [hgf] using ha⟩

namespace Inv
variable {s : St} {es : Nat → List Nat} {hold : Nat → List Nat} {sw : Nat → Option Nat}
    {own : Nat → List (Holder Nat Nat)}
  {f nf c r : Nat} {p : Pc}

section
variable (h : Inv s es hold sw own)
include h

theorem pcs_update (hr : s.pc r ≠ .idle) (hp : p.Apart) :
    ∀ r', (s.nreq ≤ r' → update s.pc r p r' = .idle) ∧ (update s.pc r p r').Apart := by
  intro r'
  by_cases hr' : r' = r
  · subst hr'
    rw [update_self]
    exact ⟨fun hge => absurd ((h.pcs r').1 hge) hr, hp⟩
  · rw [update_of_ne hr']
    exact h.pcs r'

/-- No request is about to assign to `f->chan`. -/
theorem sw_none (hf : ∀ r c, s.pc r ≠ .assign f c) : sw f = none := by
  rw [Option.eq_none_iff_forall_ne_some]
  intro r hr
  have ha := (h.books.sw_iff f r).1 hr
  cases hpc : s.pc r <;> simp [hpc, Pc.req] at ha
  subst ha
  exact hf r _ hpc

theorem live_of (hf : f ∈ (s.pc r).req.fids) : Live es f := h.books.live_of r f hf

section
variable (hr : s.pc r ≠ .idle)
include hr

theorem move (hp : p.Apart) (hfids : p.req.fids = (s.pc r).req.fids)
    (hchan : p.req.chan = (s.pc r).req.chan) (hseen : p.req.seen = none ∨ p.req.seen = (s.pc r).req.seen)
    (hseen' : p.req.chan ≠ none → p.req.seen = (s.pc r).req.seen) (hsw : (s.pc r).req.assigning = none)
    (hsw' : p.req.assigning = none) (halone : p.req.alone = false) (htouch : p.req.touches = none)
    (hmaking : p.req.making = none) : Inv (s.go r p) es hold sw own := by
  refine ⟨h.table, ?_, h.counts, h.pcs_update hr hp, h.gone⟩
  have hlooks : ∀ f c, p.req.looks ≠ some (f, c) := fun f c hl => by simp [p.req_ok.looks f c hl] at htouch
  simp only [St.go, req_update]
  refine h.books.move p.req_ok hfids hchan (hsw'.trans hsw.symm) (by simp [halone]) (by simp [htouch])
    (fun f c hl => absurd hl (hlooks f c)) hmaking (fun f hf => ?_) (fun c hc => hseen' (by simp [hc]))
  rcases hseen with hs | hs
  · simp [hs] at hf
  · exact h.books.seen r f (hs ▸ hf)

theorem look (hp : p.Apart) (hreq : (s.pc r).req = { fids := [f] })
    (hfc : (s.tab.node f).chan = some c) (hswf : sw f = none) (hfids : p.req.fids = [f]) (hchan : p.req.chan = none)
    (hsw : p.req.assigning = none) (halone : p.req.alone = false) (htouch : p.req.touches = some f)
    (hlooks : p.req.looks = none ∨ p.req.looks = some (f, c)) (hmaking : p.req.making = none) :
    Inv (s.go r p) es hold sw own := by
  refine ⟨h.table, ?_, h.counts, h.pcs_update hr hp, h.gone⟩
  have hseen := p.req_ok.touches f htouch
  simp only [St.go, req_update]
  refine h.books.move p.req_ok (by simp [hreq, hfids]) (by simp [hreq, hchan]) (by simp [hreq, hsw]) (by simp [halone])
    (fun g hg => ?_) (fun g d hd => ?_) hmaking (fun g hg => ?_) (by simp [hchan])
  · obtain rfl : f = g := by simpa [htouch] using hg
    exact hswf
  · rcases hlooks with hl | hl <;> simp only [hl, Option.some.injEq, Prod.mk.injEq, reduceCtorEq] at hd
    obtain ⟨rfl, rfl⟩ := hd
    exact hfc
  · obtain rfl : f = g := by simpa [hseen] using hg
    simp [hfc]

/-- `cclone(fs->root)`: the fid that the request makes gets its `Chan`. -/
theorem attach (hp : p.Apart) (hmaking : (s.pc r).req.making = some f)
    (hrc : (s.pc r).req.chan = none) (hrs : (s.pc r).req.assigning = none) (hfids : p.req.fids = (s.pc r).req.fids)
    (hchan : p.req.chan = none) (hsw : p.req.assigning = none) (hmaking' : p.req.making = none)
    (hseen : p.req.seen = none) :
    Inv (((s.setChan f s.nchan).newchan).go r p) es hold sw (update own s.nchan [.ent f]) := by
  have hlive := h.books.live_of r f ((h.books.ok r).making f hmaking)
  refine ⟨h.table.set rfl, ?_, h.counts.newchan, h.pcs_update hr hp, h.gone.set hlive _⟩
  simp only [St.go, St.newchan, St.setChan, Tab.set, req_update, field_update Fid.ref, field_update Fid.chan,
    update_eq_self, lt_succ_eq]
  exact h.books.attach (lt_irrefl _) hmaking p.req_ok hfids hrc hchan hrs hsw hmaking' hseen

theorem newchan (hp : p.Apart) (hfids : p.req.fids = (s.pc r).req.fids)
    (hrc : (s.pc r).req.chan = none) (hchan : p.req.chan = some s.nchan) (hrs : (s.pc r).req.assigning = none)
    (hsw : p.req.assigning = none) (htouch : p.req.touches = none) (hmaking : p.req.making = none)
    (hseen : ∀ f, p.req.seen = some f → (s.tab.node f).chan ≠ none) :
    Inv (s.newchan.go r p) es hold sw (update own s.nchan [.req r]) := by
  refine ⟨h.table, ?_, h.counts.newchan, h.pcs_update hr hp, h.gone⟩
  simp only [St.go, St.newchan, req_update, lt_succ_eq]
  exact h.books.newchan (lt_irrefl _) p.req_ok hfids hrc hchan hrs hsw htouch hmaking hseen

theorem incref (hp : p.Apart) (hf : Live es f)
    (hfc : (s.tab.node f).chan = some c)
    (hfids : p.req.fids = (s.pc r).req.fids) (hrc : (s.pc r).req.chan = none) (hchan : p.req.chan = some c)
    (hrs : (s.pc r).req.assigning = none) (hsw : p.req.assigning = none) (htouch : p.req.touches = none)
    (hmaking : p.req.making = none) (hseen : p.req.seen = some f) (halone : p.req.alone = false) (hswf : sw f = none) :
    Inv ((s.incref c).go r p) es hold sw (update own c (.req r :: own c)) := by
  have hmem := (h.books.own_ent c f).2 ⟨hf, hfc, hswf⟩
  have hcounts := h.counts.relist (c := c) (l := .req r :: own c) (ne_nil_of_mem hmem) (by simp)
  have hlen : ((Holder.req r :: own c).length : Int) = s.refs c + 1 := by simp [h.counts.refs]
  rw [hlen] at hcounts
  refine ⟨h.table, ?_, hcounts, h.pcs_update hr hp, h.gone⟩
  simp only [St.go, St.incref, req_update]
  exact h.books.incref hf hfc p.req_ok hfids hrc hchan hrs hsw htouch hmaking hseen halone hswf

theorem lt_nreq : r < s.nreq := by
  by_contra hge
  exact hr ((h.pcs r).1 (le_of_not_gt hge))

end

theorem mkfid {fid : UInt32} {alloc : Bool} {t : Tab} {n : Nat}
    (hmk : s.tab.Exmkfid fid alloc = (t, some nf)) (hn : s.nreq ≤ n) (hrn : r < n) (hp : p.Apart)
    (hfids : ∀ g, g ∈ p.req.fids ↔ g = nf ∨ g ∈ (s.pc r).req.fids) (hchan : p.req.chan = (s.pc r).req.chan)
    (halone : p.req.alone = true → (s.pc r).req.alone = true) (hrs : (s.pc r).req.assigning = none)
    (hsw : p.req.assigning = none) (htouch : p.req.touches = none) (hmaking : p.req.making = some nf)
    (hseen : p.req.seen = (s.pc r).req.seen) : Ok ({ s with tab := t, nreq := n }.go r p) := by
  unfold Tab.Exmkfid at hmk
  split at hmk <;> try cases hmk
  split at hmk <;> cases hmk
  have hfresh : ¬ Live es s.tab.fresh := fun ⟨h', hf⟩ => lt_irrefl _ (h.table.entry h' _ hf).1
  refine ⟨_, update hold s.tab.fresh [r], sw, own,
    h.table.push (by simp), ?_, h.counts, fun r' => ?_, h.gone.push _⟩
  rotate_left
  · by_cases hr' : r' = r
    · subst hr'
      simp only [St.go, update_self]
      exact ⟨fun hge => absurd hge (Nat.not_le_of_lt hrn), hp⟩
    · simp only [St.go, update_of_ne hr']
      exact ⟨fun hge => (h.pcs r').1 (le_trans hn hge), (h.pcs r').2⟩
  simp only [St.go, req_update, field_update Fid.ref, field_update Fid.chan, live_push]
  exact h.books.mkfid hfresh p.req_ok hfids hchan halone hrs hsw htouch hmaking hseen

section
variable (hr : s.pc r ≠ .idle)
include hr

theorem give (hp : p.Apart) (hmaking : (s.pc r).req.making = some nf)
    (hrc : (s.pc r).req.chan = some c) (halone : (s.pc r).req.alone = true) (hfids : p.req.fids = (s.pc r).req.fids)
    (hchan : p.req.chan = none) (hrs : (s.pc r).req.assigning = none) (hsw : p.req.assigning = none)
    (hmaking' : p.req.making = none) (hseen : p.req.seen = none) : Ok ((s.setChan nf c).go r p) := by
  have hlive := h.books.live_of r nf ((h.books.ok r).making nf hmaking)
  have hmem := (h.books.own_req c r).2 hrc
  refine ⟨es, hold, sw, _, h.table.set rfl, ?_, h.counts.same hmem (x := .ent nf), h.pcs_update hr hp,
    h.gone.set hlive _⟩
  simp only [St.go, St.setChan, Tab.set, req_update, field_update Fid.ref, field_update Fid.chan,
    update_eq_self]
  exact h.books.give hmaking hrc halone p.req_ok hfids hchan hrs hsw hmaking' hseen

/-- `cclose(f->chan)`, before `f->chan` is assigned to. -/
theorem swap (hp : p.Apart) (hf : Live es f)
    (hfc : (s.tab.node f).chan = some c)
    (hfids : p.req.fids = (s.pc r).req.fids) (hchan : p.req.chan = (s.pc r).req.chan)
    (hseen : p.req.seen = (s.pc r).req.seen) (hrs : (s.pc r).req.assigning = none) (hsw : p.req.assigning = some f)
    (htouch : p.req.touches = none) (hmaking : p.req.making = none) (halone : p.req.alone = false) (hswf : sw f = none)
    (hother : ∀ r', r' ≠ r → (s.pc r').req.touches ≠ some f) : Ok ((s.cclose c).go r p) := by
  have hmem := (h.books.own_ent c f).2 ⟨hf, hfc, hswf⟩
  refine ⟨es, hold, update sw f (some r), _, h.table, ?_,
    h.counts.cclose_mem (h.books.made_chan f c hf hfc) hmem, h.pcs_update hr hp, h.gone⟩
  simp only [St.go, St.cclose, req_update]
  exact h.books.swap hf hfc p.req_ok hfids hchan hseen hrs hsw htouch hmaking halone hswf hother

theorem assign (hp : p.Apart) (hf : Live es f)
    (has : (s.pc r).req.assigning = some f)
    (hrc : (s.pc r).req.chan = some c) (hfids : p.req.fids = (s.pc r).req.fids) (hchan : p.req.chan = none)
    (hseen : p.req.seen = none) (hsw : p.req.assigning = none) (hmaking : p.req.making = none) :
    Ok ((s.setChan f c).go r p) := by
  have hmem := (h.books.own_req c r).2 hrc
  refine ⟨es, hold, update sw f none, _, h.table.set rfl, ?_, h.counts.same hmem (x := .ent f),
    h.pcs_update hr hp, h.gone.set hf _⟩
  simp only [St.go, St.setChan, Tab.set, req_update, field_update Fid.ref, field_update Fid.chan,
    update_eq_self]
  exact h.books.assign hf has hrc p.req_ok hfids hchan hseen hsw hmaking

theorem drop (hp : p.Apart) (hrc : (s.pc r).req.chan = some c)
    (hfids : p.req.fids = (s.pc r).req.fids) (hchan : p.req.chan = none) (hseen : p.req.seen = none)
    (hrs : (s.pc r).req.assigning = none) (hsw : p.req.assigning = none) (hmaking : p.req.making = none) :
    Inv ((s.cclose c).go r p) es hold sw (update own c ((own c).erase (.req r))) := by
  have hmem := (h.books.own_req c r).2 hrc
  refine ⟨h.table, ?_, h.counts.cclose_mem (h.books.made_req hrc) hmem, h.pcs_update hr hp, h.gone⟩
  simp only [St.go, St.cclose, req_update]
  exact h.books.drop hrc p.req_ok hfids hchan hseen hrs hsw hmaking

end

theorem free (hf : Live es f) (hhold : hold f = []) {n : Fid}
    (hn : n.fid = (s.tab.node f).fid) (ha : n.attached = false) :
    Ok ({ s with tab := ⟨(unlink Cell.next f s.tab.mem s.tab.last).1, (unlink Cell.next f s.tab.mem s.tab.last).2,
      update s.tab.node f n, s.tab.fresh⟩ }.free f (s.tab.node f).chan) := by
  obtain ⟨b, hb⟩ := hf
  have hf : Live es f := ⟨b, hb⟩
  have hsame : ∀ g, g ≠ f → (update s.tab.node f n g).ref = (s.tab.node g).ref ∧
      (update s.tab.node f n g).chan = (s.tab.node g).chan := fun g hg => by simp [hg]
  cases hfc : (s.tab.node f).chan with
  | none =>
    refine ⟨_, hold, sw, own, h.table.unlink hb hn, ?_, h.counts, h.pcs, h.gone.free h.table hb ha none⟩
    rw [live_erase h.table hb]
    exact h.books.free_nil hhold hfc hsame
  | some c =>
    have hlt := h.books.made_chan f c hf hfc
    have hown := h.books.own_of_hold_nil hf hhold hfc
    refine ⟨_, hold, sw, update own c [], h.table.unlink hb hn, ?_,
      h.counts.cclose hlt (by simp [hown]) (by simp [hown]), h.pcs, h.gone.free h.table hb ha (some c)⟩
    rw [live_erase h.table hb]
    exact h.books.free hf hhold hfc hsame

theorem put (hr : s.pc r ≠ .idle) (hp : p.Apart) (hf : f ∈ (s.pc r).req.fids)
    (hfids : ∀ g, g ∈ p.req.fids ↔ g ∈ (s.pc r).req.fids ∧ g ≠ f) (hrc : (s.pc r).req.chan = none)
    (hchan : p.req.chan = none) (hrs : (s.pc r).req.assigning = none) (hsw : p.req.assigning = none)
    (hmaking : p.req.making = none) (hseen : p.req.seen = none) : Ok ((s.putfid f).go r p) := by
  have hlive := h.live_of hf
  have hset : Inv ({ s with tab := s.tab.set f { s.tab.node f with ref := (s.tab.node f).ref - 1 } }.go r p) es
      (update hold f ((hold f).erase r)) sw own := by
    refine ⟨h.table.set rfl, ?_, h.counts, h.pcs_update hr hp, h.gone.set hlive _⟩
    simp only [St.go, Tab.set, req_update, field_update Fid.ref, field_update Fid.chan, update_eq_self]
    exact h.books.put hf p.req_ok hfids hrc hchan hrs hsw hmaking hseen
  have href := h.books.ref_eq f hlive
  by_cases hlast : (s.tab.node f).ref - 1 = 0 ∧ (s.tab.node f).attached = false
  · have hhold : (hold f).erase r = [] := by
      rw [← length_eq_zero_iff, length_erase_of_mem ((h.books.hold_iff f r).2 hf)]
      omega
    have hfree := hset.free hlive (by simpa using hhold)
      (n := { s.tab.node f with ref := (s.tab.node f).ref - 1, chan := none }) (by simp [St.go, Tab.set]) hlast.2
    simp only [St.putfid, Tab.Exputfid, if_pos hlast]
    simp only [St.go, Tab.set, update_self, update_idem] at hfree
    cases hfc : (s.tab.node f).chan <;> simp only [hfc] at hfree <;> exact hfree
  · simp only [St.putfid, Tab.Exputfid, if_neg hlast]
    exact ⟨_, _, _, _, hset⟩

theorem detach (hf : Live es f) : Inv { s with tab := s.tab.detach f } es hold sw own := by
  refine ⟨h.table.set rfl, ?_, h.counts, h.pcs, h.gone.set hf _⟩
  simp only [Tab.detach, Tab.set, field_update Fid.ref, field_update Fid.chan, update_eq_self]
  exact h.books

theorem ok : Ok s := ⟨es, hold, sw, own, h⟩

theorem setOpen : Inv (s.setOpen c) es hold sw own :=
  ⟨h.table, h.books, h.counts, h.pcs, h.gone⟩

attribute [local simp] Pc.req

theorem exmount {k : Kind} {mounted : Bool} (hpc : s.pc r = .got k f)
    (hfc : (s.tab.node f).chan = some c) (hswf : sw f = none) : Ok (s.exmount r k f c mounted) := by
  have hr : s.pc r ≠ .idle := by simp [hpc]
  unfold St.exmount
  split
  · apply Inv.ok
    apply h.newchan hr <;> simp [hpc, hfc]
  · have hf : Live es f := h.live_of (r := r) (by simp [hpc])
    apply Inv.ok
    apply h.incref (f := f) hr <;> simp [hpc, hswf, hf, hfc]

theorem reopen {k : Kind} (hpc : s.pc r = .mount k f c) :
    Ok ((s.cclose c).newchan.go r (.swap f s.nchan)) := by
  have hseen := h.books.seen r f (by simp [hpc])
  have hdrop : Inv ((s.cclose c).go r (.put f)) es hold sw (update own c ((own c).erase (.req r))) := by
    apply h.drop <;> simp [hpc]
  have hnew : Ok (((s.cclose c).go r (.put f)).newchan.go r (.swap f s.nchan)) := by
    apply Inv.ok
    apply hdrop.newchan <;> simp [St.go, St.cclose, hseen]
  simp only [St.go, St.newchan, St.cclose, update_idem] at hnew ⊢
  exact hnew

theorem got {ok other : Bool} {k : Kind} {s' : St} (hpc : s.pc r = .got k f)
    (hG : Orderly s (.req r ok other)) (hs : reqStep s r ok other = some s') : Ok s' := by
  have hr : s.pc r ≠ .idle := by simp [hpc]
  have hput : Ok (s.go r (.put f)) := by
    apply Inv.ok
    apply h.move hr <;> simp [hpc]
  have hdetach : Ok (s.go r (.detach f)) := by
    apply Inv.ok
    apply h.move hr <;> simp [hpc]
  cases hfc : (s.tab.node f).chan with
  | none =>
    cases k <;> simp only [reqStep, hpc, hfc, reduceCtorEq] at hs
    cases hs
    exact hdetach
  | some c =>
    cases k <;> simp only [reqStep, hpc, hfc] at hs <;> simp only [Orderly, hpc] at hG
    case tclunk =>
      cases hs
      exact hdetach
    case twalk newfid =>
      have hswf := h.sw_none hG
      split at hs <;> cases hs
      · exact hput
      · apply Inv.ok
        apply h.look hr (f := f) (c := c) <;> simp [hpc, hfc, hswf]
    case topen =>
      have hswf := h.sw_none hG.1
      split at hs <;> cases hs
      · exact hput
      · next hopen =>
        rw [hG.2 c hfc (by simpa using hopen), if_pos rfl]
        exact h.exmount hpc hfc hswf
    case tcreate =>
      have hswf := h.sw_none hG
      split at hs <;> cases hs
      · exact hput
      · split
        · exact h.exmount hpc hfc hswf
        · exact hput
    case tio =>
      have hswf := h.sw_none hG
      split at hs <;> cases hs
      · apply Inv.ok
        apply h.look hr (f := f) (c := c) <;> simp [hpc, hfc, hswf]
      · exact hput
    case tstat =>
      have hswf := h.sw_none hG.1
      rw [hG.2, if_pos rfl] at hs
      cases hs
      exact h.exmount hpc hfc hswf
    case twstat =>
      have hswf := h.sw_none hG
      cases hs
      split
      · exact h.exmount hpc hfc hswf
      · exact hput
    case tremove =>
      have hswf := h.sw_none hG
      cases hs
      split
      · exact h.exmount hpc hfc hswf
      · exact hdetach

theorem mount {ok other : Bool} {k : Kind} {s' : St} (hpc : s.pc r = .mount k f c)
    (hs : reqStep s r ok other = some s') : Ok s' := by
  have hr : s.pc r ≠ .idle := by simp [hpc]
  have hdrop : ∀ b, Ok (s.go r (.drop f c b)) := fun b => by
    apply Inv.ok
    apply h.move hr <;> simp [hpc]
  have hswap : Inv (s.go r (.swap f c)) es hold sw own := by
    apply h.move hr <;> simp [hpc]
  cases k <;> simp only [reqStep, hpc] at hs
  case topen =>
    repeat' split at hs
    all_goals cases hs
    · obtain ⟨_, _, _, _, hi⟩ := h.reopen hpc
      exact ⟨_, _, _, _, hi.setOpen⟩
    · exact hswap.setOpen.ok
    · exact hdrop false
  case tcreate =>
    split at hs <;> cases hs
    · exact hswap.setOpen.ok
    · exact hdrop false
  all_goals cases hs; exact hdrop _

theorem req {ok other : Bool} {s' : St} (hG : Orderly s (.req r ok other))
    (hs : reqStep s r ok other = some s') : Ok s' := by
  cases hpc : s.pc r with
  | idle => simp [reqStep, hpc] at hs
  | got k f => exact h.got hpc hG hs
  | mount k f c => exact h.mount hpc hs
  | attach f =>
    have hr : s.pc r ≠ .idle := by simp [hpc]
    simp only [reqStep, hpc] at hs
    split at hs <;> cases hs <;> apply Inv.ok
    · apply h.attach hr <;> simp [hpc]
    · apply h.move hr <;> simp [hpc]
  | alloc f =>
    simp only [reqStep, hpc] at hs
    cases hs
    apply Inv.ok
    split <;> apply h.move <;> simp [hpc]
  | clone newfid f =>
    simp only [reqStep, hpc, Orderly] at hs hG
    rw [if_pos hG] at hs
    cases hs
    have hseen := h.books.seen r f (by simp [hpc])
    apply Inv.ok
    apply h.newchan <;> simp [hpc, hseen]
  | walk newfid f c =>
    have hr : s.pc r ≠ .idle := by simp [hpc]
    have hdrop : Ok (s.go r (.drop f c false)) := by
      apply Inv.ok
      apply h.move hr <;> simp [hpc]
    simp only [reqStep, hpc, Orderly] at hs hG
    split at hs
    · cases newfid with
      | none =>
        cases hs
        apply Inv.ok
        apply h.move hr <;> simp [hpc]
      | some fid =>
        cases hmk : s.tab.Exmkfid fid other with
        | mk t o =>
          simp only [hmk] at hs
          cases o with
          | some nf =>
            cases hs
            apply h.mkfid hmk (le_refl s.nreq) (h.lt_nreq hr) <;> simp [hpc, or_comm]
          | none =>
            cases hs
            obtain rfl := Exmkfid_none hmk
            exact hdrop
    · next hno =>
      rw [hG.resolve_left hno] at hs
      cases hs
      exact hdrop
  | made f nf c =>
    simp only [reqStep, hpc] at hs
    cases hs
    have hne : f ≠ nf := by
      rintro rfl
      exact h.books.seen r f (by simp [hpc]) (h.books.making r f (by simp [hpc]))
    apply h.give <;> simp [hpc, hne]
  | putNew f nf =>
    have hne : f ≠ nf := by simpa [hpc] using (h.pcs r).2
    simp only [reqStep, hpc] at hs
    cases hs
    apply h.put <;> simp [hpc]
    intro g
    by_cases hg : g = f <;> simp [hg, hne]
  | io f c =>
    simp only [reqStep, hpc] at hs
    cases hs
    apply Inv.ok
    apply h.move <;> simp [hpc]
  | swap f c =>
    simp only [reqStep, hpc, Orderly] at hs hG
    split at hs <;> cases hs
    next c' hfc =>
      have hf : Live es f := h.live_of (r := r) (by simp [hpc])
      have hswf : sw f = none := h.sw_none fun r' d hd => by
        by_cases hr' : r' = r
        · subst hr'
          simp [hpc] at hd
        · exact (hG r' hr').2.2 d hd
      have hother : ∀ r', r' ≠ r → (s.pc r').req.touches ≠ some f := by
        intro r' hr' ht
        obtain ⟨hio, hclone, -⟩ := hG r' hr'
        cases hpc' : s.pc r' <;> simp only [hpc', Pc.req, Option.some.injEq, reduceCtorEq] at ht <;> subst ht
        · exact hclone _ hpc'
        · exact hio _ hpc'
      apply h.swap (f := f) (c := c') <;> simp [hpc, hf, hfc, hswf]
      exact fun r' hr' => hother r' hr'
  | assign f c =>
    have hf : Live es f := h.live_of (r := r) (by simp [hpc])
    simp only [reqStep, hpc] at hs
    cases hs
    apply h.assign <;> simp [hpc, hf]
  | drop f c b =>
    simp only [reqStep, hpc] at hs
    cases hs
    apply Inv.ok
    split <;> apply h.drop <;> simp [hpc]
  | detach f =>
    have hf : Live es f := h.live_of (r := r) (by simp [hpc])
    simp only [reqStep, hpc] at hs
    cases hs
    apply Inv.ok
    apply (h.detach hf).move <;> simp [hpc]
  | put f =>
    simp only [reqStep, hpc] at hs
    cases hs
    apply h.put <;> simp [hpc]

theorem attachOp {fid : UInt32} {alloc : Bool} {s' : St}
    (hs : step s (.attach fid alloc) = some s') : Ok s' := by
  have hidle := (h.pcs s.nreq).1 (le_refl _)
  simp only [step] at hs
  split at hs <;> try cases hs
  split at hs <;> cases hs
  · next t f hmk =>
    apply h.mkfid hmk (Nat.le_succ _) (Nat.lt_succ_self _) <;> simp [hidle]
  · next t hmk =>
    obtain rfl := Exmkfid_none hmk
    exact h.ok

theorem requestOp {fid : UInt32} {k : Kind} {s' : St}
    (hs : step s (.request k fid) = some s') : Ok s' := by
  have hidle := (h.pcs s.nreq).1 (le_refl _)
  simp only [step] at hs
  split at hs <;> try cases hs
  unfold Tab.Exgetfid at hs
  rw [h.table.search_eq] at hs
  cases hfind : (es (hash fid)).find? fun f => sameFid (s.tab.node f).fid fid with
  | none =>
    simp only [hfind] at hs
    cases hs
    exact h.ok
  | some f =>
    have hf : Live es f := ⟨_, mem_of_find?_eq_some hfind⟩
    simp only [hfind] at hs
    cases ha : (s.tab.node f).attached <;> simp only [ha, if_true, Bool.false_eq_true, if_false] at hs <;> cases hs
    · exact h.ok
    refine ⟨es, update hold f (s.nreq :: hold f), sw, own, h.table.set (by rfl), ?_, h.counts, fun r' => ?_,
      h.gone.set hf _⟩
    · simp only [St.go, Tab.set, req_update, field_update Fid.ref, field_update Fid.chan, update_eq_self]
      apply h.books.get (p := (Pc.got k f).req) <;> simp [hidle, hf]
      exact Pc.req_ok (.got k f)
    · by_cases hr' : r' = s.nreq
      · subst hr'
        simp [St.go]
      · simp only [St.go, update_of_ne hr']
        exact ⟨fun hge => (h.pcs r').1 (Nat.le_of_succ_le hge), (h.pcs r').2⟩

theorem freefid {s' : St} (hs : step s (.freefid f) = some s') : Ok s' := by
  simp only [step] at hs
  split at hs <;> try cases hs
  next hf =>
    have hf : Live es f := h.table.mem_entries.1 hf.2
    split at hs <;> cases hs
    · next href =>
      have hhold : hold f = [] := by
        rw [← length_eq_zero_iff]
        have hlen := h.books.ref_eq f hf
        omega
      have hfree := (h.detach hf).free hf hhold (n := { s.tab.node f with attached := false })
        (by simp [Tab.detach, Tab.set]) rfl
      simpa [Tab.detach, Tab.set] using hfree
    · exact (h.detach hf).ok

end

end Inv

theorem Ok.step {s s' : St} {op : Op} (h : Ok s) (hG : Orderly s op) (hs : step s op = some s') : Ok s' := by
  obtain ⟨es, hold, sw, own, h⟩ := h
  cases op with
  | attach fid alloc => exact h.attachOp hs
  | request k fid => exact h.requestOp hs
  | req r ok other => exact h.req hG hs
  | hangup =>
    simp only [Fids.step] at hs
    split at hs <;> cases hs
    exact ⟨es, hold, sw, own, h.table, h.books, h.counts, h.pcs, h.gone⟩
  | freefid f => exact h.freefid hs

end Node9.Fids
