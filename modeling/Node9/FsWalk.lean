import Node9.Export

/-!
# Walking in the host's files (`fswalk` in `devfs-posix.c`)

The host says what `stat` and `lstat` of a name give; it does not change during a walk. A `Cname` is a name with a
reference count, a `Cname*` is the number of its allocation, and a name whose count is 0 has been freed. There is
memory. The `struct stat` of `fswalk` is not set at first: what it has is `junk`.
-/

namespace Node9.Devfs
open Buf Names Function Option
open List hiding lex

/-- `struct stat`, as far as `fswalk` looks at it. -/
structure Stat where
  st_dev : Nat
  st_ino : Nat
  st_mode : UInt32
  st_uid : Int32
  st_gid : Int32
  st_mtime : UInt32
deriving DecidableEq

structure Host where
  stat : Bytes → Option Stat
  lstat : Bytes → Option Stat

/-- `xstat`, which makes invalid symbolic links visible. -/
def Host.xstat (h : Host) (f : Bytes) : Option Stat := (h.stat f).orElse fun _ => h.lstat f

def S_IFMT : UInt32 := 0o170000
def S_ISDIR (mode : UInt32) : Bool := mode &&& S_IFMT = 0o040000
def S_ISSOCK (mode : UInt32) : Bool := mode &&& S_IFMT = 0o140000

def QTDIR : UInt8 := 0x80
def QTFILE : UInt8 := 0

def fsqid (st : Stat) : Qid :=
  ⟨Export.fsqidPath (st.st_dev, st.st_ino), st.st_mtime, if S_ISDIR st.st_mode then QTDIR else QTFILE⟩

/-! ### Names with references -/

structure Cname where
  ref : Nat
  s : Bytes

structure Cnames where
  node : Nat → Cname
  fresh : Nat

namespace Cnames
variable (h : Cnames)

def set (n : Nat) (c : Cname) : Cnames := { h with node := Function.update h.node n c }

def incref (n : Nat) : Cnames := h.set n ⟨(h.node n).ref + 1, (h.node n).s⟩

def cnameclose (n : Nat) : Cnames := h.set n ⟨(h.node n).ref - 1, (h.node n).s⟩

def newcname (s : Bytes) : Cnames × Nat := (⟨Function.update h.node h.fresh ⟨1, s⟩, h.fresh + 1⟩, h.fresh)

/-- `addelem`, which copies a name that has other references. -/
def addelem (n : Nat) (s : Bytes) : Cnames × Nat :=
  if s = [dot] then (h, n)
  else
    let (h, n) :=
      if (h.node n).ref > 1 then
        let (h, new) := h.newcname (h.node n).s
        (h.cnameclose n, new)
      else (h, n)
    (h.set n ⟨(h.node n).ref, Names.addelem (h.node n).s s⟩, n)

end Cnames

structure Fsinfo where
  uid : Int32
  gid : Int32
  mode : UInt32
  issocket : Bool
  spec : Option Bytes
  name : Nat
  rootqid : Qid

structure Chan where
  type : Nat
  qid : Qid
  copen : Bool
  /-- `FS(c)` -/
  aux : Fsinfo

def isdir (q : Qid) : Bool := q.type &&& QTDIR ≠ 0

structure Walk where
  names : Cnames
  current : Nat
  qid : Qid
  st : Stat
  qids : List Qid

/-- A name that is not looked up: `.`, and `..` at the root of the device. -/
def stays (rootqid : Qid) (q : Qid) (n : Bytes) : Bool := n = [dot] || (isdotdot n && q.path = rootqid.path)

/-- The loop, with the error that ends it early. -/
def fswalkLoop (host : Host) (rootqid : Qid) : List Bytes → Walk → Walk × Option String
  | [], w => (w, none)
  | n :: ns, w =>
    if !isdir w.qid then (w, some "not a directory")
    else if stays rootqid w.qid n then fswalkLoop host rootqid ns { w with qids := w.qids ++ [w.qid] }
    else
      let (names, next) := (w.names.incref w.current).addelem w.current n
      match host.xstat (names.node next).s with
      | none => ({ w with names := names.cnameclose next }, some "file does not exist")
      | some st =>
        fswalkLoop host rootqid ns ⟨names.cnameclose w.current, next, fsqid st, st, w.qids ++ [fsqid st]⟩

/-- What `fswalk` returns, and what becomes of the names. -/
structure Walked where
  wq : Option (Option Chan × List Qid)
  names : Cnames

inductive Ret
  | panic
  /-- an error that is raised in the caller -/
  | raised (err : String)
  | ret (r : Walked)

/-- `nc` is the channel to be walked, if there is one already. -/
def fswalk (host : Host) (names : Cnames) (junk : Stat) (c : Chan) (nc : Option Chan) (name : List Bytes) : Ret :=
  if name ≠ [] ∧ !isdir c.qid then .raised "not a directory"
  else
    match nc.orElse fun _ => if c.copen then none else some { c with type := 0 } with
    | none => .panic
    | some nc =>
      let rootqid := c.aux.rootqid
      let (w, err) := fswalkLoop host rootqid name ⟨names.incref c.aux.name, c.aux.name, nc.qid, junk, []⟩
      if err.isSome ∧ w.qids = [] then .ret ⟨none, w.names.cnameclose w.current⟩
      else if w.qids.length < name.length then .ret ⟨some (none, w.qids), w.names.cnameclose w.current⟩
      else
        let aux : Fsinfo :=
          if name ≠ [] then
            ⟨w.st.st_uid, w.st.st_gid, w.st.st_mode, S_ISSOCK w.st.st_mode, c.aux.spec, w.current, rootqid⟩
          else ⟨c.aux.uid, c.aux.gid, c.aux.mode, c.aux.issocket, c.aux.spec, w.current, rootqid⟩
        .ret ⟨some (some { nc with type := c.type, qid := w.qid, aux }, w.qids), w.names⟩

/-! ### What a walk should do -/

/-- The channel's identity is that of the host file of its name. -/
def Describes (host : Host) (names : Cnames) (c : Chan) : Prop :=
  ∃ st, host.xstat (names.node c.aux.name).s = some st ∧ c.qid = fsqid st ∧ c.aux.uid = st.st_uid ∧
    c.aux.gid = st.st_gid ∧ c.aux.mode = st.st_mode ∧ c.aux.issocket = S_ISSOCK st.st_mode

/-- From the file called `p`, with the qid `q`, the names reach the file called `p'`. -/
inductive Reaches (host : Host) (rootqid : Qid) : Bytes → Qid → List Bytes → Bytes → Prop
  | nil {p q} : Reaches host rootqid p q [] p
  | dot {p q ns p'} : Reaches host rootqid p q ns p' → Reaches host rootqid p q ([dot] :: ns) p'
  | root {p q ns p'} : q.path = rootqid.path → Reaches host rootqid p q ns p' →
      Reaches host rootqid p q ([Names.dot, Names.dot] :: ns) p'
  | step {p q n ns p' st} : n ≠ [Names.dot] → ¬ (n = [Names.dot, Names.dot] ∧ q.path = rootqid.path) →
      host.xstat (addelem p n) = some st → Reaches host rootqid (addelem p n) (fsqid st) ns p' →
      Reaches host rootqid p q (n :: ns) p'

/-- Every name has the references that it had, and one more if it is `o`; the new ones have been freed. -/
structure Balanced (h h' : Cnames) (o : Option Nat) : Prop where
  old : ∀ n < h.fresh, h'.node n = ⟨(h.node n).ref + if o = some n then 1 else 0, (h.node n).s⟩
  new : ∀ n < h'.fresh, h.fresh ≤ n → (h'.node n).ref = if o = some n then 1 else 0

def Walked.clone (r : Walked) : Option Chan := r.wq.bind Prod.fst

/-- For a walk from the channel `c`, by a channel that has the qid `q`. -/
structure Good (host : Host) (names : Cnames) (c : Chan) (q : Qid) (name : List Bytes) (r : Walked) : Prop where
  describes : ∀ x ∈ r.clone, Describes host r.names x
  reaches : ∀ x ∈ r.clone, Reaches host c.aux.rootqid (names.node c.aux.name).s q name (r.names.node x.aux.name).s
  balanced : Balanced names r.names (r.clone.map fun x => x.aux.name)

variable {host : Host} {h h₀ : Cnames} {w w' : Walk} {n cur : Nat} {root q : Qid} {p s : Bytes} {ns : List Bytes}

theorem addelem_incref (hs : s ≠ [dot]) (hcur : cur < h.fresh) (hpos : 0 < (h.node cur).ref) :
    (h.incref cur).addelem cur s =
      (⟨update h.node h.fresh ⟨1, addelem (h.node cur).s s⟩, h.fresh + 1⟩, h.fresh) := by
  have hne : cur ≠ h.fresh := ne_of_lt hcur
  rw [Cnames.addelem, if_neg hs]
  simp only [Cnames.incref, Cnames.set, Cnames.newcname, Cnames.cnameclose, update_self, gt_iff_lt,
    Nat.lt_add_left_iff_pos, hpos, if_true, update_of_ne hne, update_of_ne hne.symm,
    Nat.add_sub_cancel, Prod.mk.injEq, and_true]
  congr 1
  funext m
  by_cases hm : m = h.fresh
  · simp [hm]
  · by_cases hmc : m = cur
    · simp [hmc, hne]
    · simp [hm, hmc]

/-- The names during the loop: `current` has one reference more than it had. -/
structure Held (h₀ h : Cnames) (cur : Nat) : Prop where
  balanced : Balanced h₀ h (some cur)
  lt : cur < h.fresh
  le : h₀.fresh ≤ h.fresh

theorem Held.pos (hw : Held h₀ h cur) : 0 < (h.node cur).ref := by
  rcases lt_or_ge cur h₀.fresh with hlt | hge
  · rw [hw.balanced.old cur hlt, if_pos rfl]
    exact Nat.succ_pos _
  · rw [hw.balanced.new cur hw.lt hge, if_pos rfl]
    exact Nat.one_pos

theorem held_start (hn : n < h.fresh) : Held h (h.incref n) n where
  balanced := by
    refine ⟨fun m _ => ?_, fun m hm hge => absurd hm (Nat.not_lt_of_le hge)⟩
    by_cases hmn : m = n
    · simp [hmn, Cnames.incref, Cnames.set]
    · simp [hmn, Ne.symm hmn, Cnames.incref, Cnames.set]
  lt := hn
  le := le_rfl

section
variable (hw : Held h₀ h cur)
include hw

attribute [local simp] Cnames.cnameclose Cnames.set

theorem Held.close : Balanced h₀ (h.cnameclose cur) none := by
  refine ⟨fun m hm => ?_, fun m hm hge => ?_⟩
  · have hold := hw.balanced.old m hm
    by_cases hmc : m = cur
    · subst hmc
      simp [hold]
    · simp [hold, hmc, Ne.symm hmc]
  · have hnew := hw.balanced.new m hm hge
    by_cases hmc : m = cur
    · subst hmc
      simp [hnew]
    · simp [hnew, hmc, Ne.symm hmc]

theorem Held.fresh_ne : cur ≠ h.fresh := ne_of_lt hw.lt

theorem Held.drop :
    Held h₀ (Cnames.cnameclose ⟨update h.node h.fresh ⟨1, p⟩, h.fresh + 1⟩ h.fresh) cur where
  balanced := by
    refine ⟨fun m hm => ?_, fun m hm hge => ?_⟩
    · have hne : m ≠ h.fresh := ne_of_lt (lt_of_lt_of_le hm hw.le)
      simp [hne, hw.balanced.old m hm]
    · by_cases hmf : m = h.fresh
      · simp [hmf, hw.fresh_ne]
      · have hlt : m < h.fresh := Nat.lt_of_le_of_ne (Nat.le_of_lt_succ hm) hmf
        simp [hmf, hw.balanced.new m hlt hge]
  lt := Nat.lt_succ_of_lt hw.lt
  le := Nat.le_succ_of_le hw.le

theorem Held.next :
    Held h₀ (Cnames.cnameclose ⟨update h.node h.fresh ⟨1, p⟩, h.fresh + 1⟩ cur) h.fresh where
  balanced := by
    have hclose := hw.close
    have hne := hw.fresh_ne
    refine ⟨fun m hm => ?_, fun m hm hge => ?_⟩
    · have hmf : m ≠ h.fresh := ne_of_lt (lt_of_lt_of_le hm hw.le)
      have hold := hclose.old m hm
      by_cases hmc : m = cur
      · subst hmc
        simpa [hmf, Ne.symm hmf] using hold
      · simpa [hmf, Ne.symm hmf, hmc] using hold
    by_cases hmf : m = h.fresh
    · simp [hmf, Ne.symm hne]
    have hlt : m < h.fresh := Nat.lt_of_le_of_ne (Nat.le_of_lt_succ hm) hmf
    have hnew := hclose.new m hlt hge
    by_cases hmc : m = cur
    · subst hmc
      simpa [hmf, Ne.symm hmf] using hnew
    · simpa [hmf, Ne.symm hmf, hmc] using hnew
  lt := Nat.lt_succ_self _
  le := Nat.le_succ_of_le hw.le

end

theorem node_next (hne : cur ≠ h.fresh) :
    (Cnames.cnameclose ⟨update h.node h.fresh ⟨1, p⟩, h.fresh + 1⟩ cur).node h.fresh = ⟨1, p⟩ := by
  simp [Cnames.cnameclose, Cnames.set, hne.symm]

def Walk.path (w : Walk) : Bytes := (w.names.node w.current).s

/-- What has been found out about `current` is true. -/
def Walk.Seen (host : Host) (w : Walk) : Prop := host.xstat w.path = some w.st ∧ w.qid = fsqid w.st

theorem ne_dot_of_stays (hn : stays root q s = false) : s ≠ [dot] := by
  rintro rfl
  simp [stays] at hn

theorem fswalkLoop_look (hw : Held h₀ w.names w.current) (hdir : isdir w.qid = true)
    (hn : stays root w.qid s = false) :
    (∃ w' err, fswalkLoop host root (s :: ns) w = (w', some err) ∧ Held h₀ w'.names w'.current ∧ w'.qids = w.qids) ∨
      ∃ w', fswalkLoop host root (s :: ns) w = fswalkLoop host root ns w' ∧ Held h₀ w'.names w'.current ∧
        w'.path = addelem w.path s ∧ w'.Seen host ∧ w'.qids = w.qids ++ [w'.qid] := by
  have hadd := addelem_incref (ne_dot_of_stays hn) hw.lt hw.pos
  have hdir' : ¬ (!isdir w.qid) = true := by simp [hdir]
  rw [fswalkLoop, if_neg hdir', if_neg (by simp [hn]), hadd]
  simp only [update_self]
  cases hst : host.xstat (addelem (w.names.node w.current).s s) with
  | none => exact .inl ⟨_, _, rfl, hw.drop, rfl⟩
  | some st =>
    have hpath := congrArg Cname.s (node_next (p := addelem (w.names.node w.current).s s) hw.fresh_ne)
    refine .inr ⟨_, rfl, hw.next, hpath, ⟨?_, rfl⟩, rfl⟩
    rw [Walk.path, hpath, hst]

theorem reaches_stays {p' : Bytes} (hs : stays root q s = true) (h : Reaches host root p q ns p') :
    Reaches host root p q (s :: ns) p' := by
  simp only [stays, isdotdot, Bool.or_eq_true, Bool.and_eq_true, decide_eq_true_eq] at hs
  rcases hs with rfl | ⟨rfl, hq⟩
  · exact .dot h
  · exact .root hq h

theorem reaches_look {p' : Bytes} {st : Stat} (hs : stays root q s = false) (hst : host.xstat (addelem p s) = some st)
    (h : Reaches host root (addelem p s) (fsqid st) ns p') : Reaches host root p q (s :: ns) p' := by
  refine .step (ne_dot_of_stays hs) ?_ hst h
  rintro ⟨rfl, hq⟩
  simp [stays, isdotdot, hq] at hs

theorem fswalkLoop_spec (ns : List Bytes) (w : Walk) (hw : Held h₀ w.names w.current) :
    ∃ w' err, fswalkLoop host root ns w = (w', err) ∧ Held h₀ w'.names w'.current ∧
      (err ≠ none → w'.qids.length < w.qids.length + ns.length) ∧
      (err = none → w'.qids.length = w.qids.length + ns.length ∧ Reaches host root w.path w.qid ns w'.path ∧
        (w.Seen host ∨ (∃ n ∈ ns, stays root w.qid n = false) → w'.Seen host) ∧ (ns = [] → w' = w)) := by
  induction ns generalizing w with
  | nil => exact ⟨w, none, rfl, hw, fun h => absurd rfl h, fun _ => ⟨rfl, .nil, by simp, fun _ => rfl⟩⟩
  | cons n ns ih =>
    by_cases hdir : isdir w.qid = true
    · cases hn : stays root w.qid n with
      | true =>
        obtain ⟨w', err, hrun, hw', hlt, hend⟩ := ih { w with qids := w.qids ++ [w.qid] } hw
        refine ⟨w', err, ?_, hw', fun he => ?_, fun he => ?_⟩
        · rw [fswalkLoop, if_neg (by simp [hdir]), if_pos hn, hrun]
        · have := hlt he
          simp only [length_append, length_cons, length_nil] at this ⊢
          omega
        obtain ⟨hlen, hreach, hseen, -⟩ := hend he
        refine ⟨?_, reaches_stays hn hreach, fun h => hseen ?_, fun h => absurd h (cons_ne_nil _ _)⟩
        · simp only [length_append, length_cons, length_nil] at hlen ⊢
          omega
        · rcases h with h | ⟨m, hm, hlook⟩
          · exact .inl h
          · rcases mem_cons.mp hm with rfl | hm
            · exact absurd (hn.symm.trans hlook) (by decide)
            · exact .inr ⟨m, hm, hlook⟩
      | false =>
        rcases @fswalkLoop_look host _ _ _ _ ns hw hdir hn with
          ⟨w', err, hrun, hw', hq⟩ | ⟨w₁, hrun, hw₁, hpath, hseen₁, hq⟩
        · refine ⟨w', some err, hrun, hw', fun _ => ?_, fun h => by cases h⟩
          rw [hq, length_cons]
          omega
        obtain ⟨w', err, hrun', hw', hlt, hend⟩ := ih w₁ hw₁
        refine ⟨w', err, hrun.trans hrun', hw', fun he => ?_, fun he => ?_⟩
        · have := hlt he
          rw [hq] at this
          simp only [length_append, length_cons, length_nil] at this ⊢
          omega
        obtain ⟨hlen, hreach, hseen, -⟩ := hend he
        rw [hq] at hlen
        refine ⟨?_, ?_, fun _ => hseen (.inl hseen₁), fun h => absurd h (cons_ne_nil _ _)⟩
        · simp only [length_append, length_cons, length_nil] at hlen ⊢
          omega
        · have hst := hseen₁.1
          rw [hpath, hseen₁.2] at hreach
          rw [hpath] at hst
          exact reaches_look hn hst hreach
    · refine ⟨w, some "not a directory", ?_, hw, fun _ => ?_, fun h => by cases h⟩
      · rw [fswalkLoop, if_pos (by simpa using hdir)]
      · rw [length_cons]
        omega

theorem fswalkLoop_stays (ns : List Bytes) (w : Walk) (hdir : isdir w.qid = true)
    (hns : ∀ n ∈ ns, stays root w.qid n = true) :
    ∃ qids, fswalkLoop host root ns w = ({ w with qids := qids }, none) ∧ qids.length = w.qids.length + ns.length := by
  induction ns generalizing w with
  | nil => exact ⟨w.qids, rfl, rfl⟩
  | cons n ns ih =>
    obtain ⟨qids, hrun, hlen⟩ := ih { w with qids := w.qids ++ [w.qid] } hdir fun m hm => hns m
      (mem_cons_of_mem _ hm)
    refine ⟨qids, ?_, ?_⟩
    · rw [fswalkLoop, if_neg (by simp [hdir]), if_pos (hns n mem_cons_self), hrun]
    · simp only [length_append, length_cons, length_nil] at hlen ⊢
      omega

variable {names : Cnames} {junk : Stat} {c x : Chan} {nc : Option Chan} {name : List Bytes} {r : Walked}

/-- Nothing is raised, and nothing panics, before the first name. -/
def Begins (c : Chan) (nc : Option Chan) (name : List Bytes) : Prop :=
  (nc = none → c.copen = false) ∧ (name ≠ [] → isdir c.qid = true ∧ isdir (nc.getD c).qid = true)

/-- Something is known about the file that is reached: a name is looked up, or the channel knows it already. -/
def Found (host : Host) (names : Cnames) (c : Chan) (q : Qid) (name : List Bytes) : Prop :=
  (name = [] → Describes host names { c with qid := q }) ∧
    (name ≠ [] → ∃ n ∈ name, stays c.aux.rootqid q n = false)

def startWalk (names : Cnames) (junk : Stat) (c : Chan) (q : Qid) : Walk :=
  ⟨names.incref c.aux.name, c.aux.name, q, junk, []⟩

def endInfo (c : Chan) (name : List Bytes) (w : Walk) : Fsinfo :=
  if name ≠ [] then ⟨w.st.st_uid, w.st.st_gid, w.st.st_mode, S_ISSOCK w.st.st_mode, c.aux.spec, w.current,
    c.aux.rootqid⟩
  else ⟨c.aux.uid, c.aux.gid, c.aux.mode, c.aux.issocket, c.aux.spec, w.current, c.aux.rootqid⟩

theorem fswalk_eq (hc : nc = none → c.copen = false) (hdir : name ≠ [] → isdir c.qid = true) {w : Walk}
    {err : Option String}
    (hrun : fswalkLoop host c.aux.rootqid name (startWalk names junk c (nc.getD c).qid) = (w, err)) :
    ∃ nc' : Chan, fswalk host names junk c nc name =
      if err.isSome ∧ w.qids = [] then .ret ⟨none, w.names.cnameclose w.current⟩
      else if w.qids.length < name.length then .ret ⟨some (none, w.qids), w.names.cnameclose w.current⟩
      else .ret ⟨some (some { nc' with type := c.type, qid := w.qid, aux := endInfo c name w }, w.qids), w.names⟩ := by
  have hraise : ¬ (name ≠ [] ∧ (!isdir c.qid) = true) := by
    rintro ⟨hne, hnd⟩
    simp [hdir hne] at hnd
  rw [fswalk, if_neg hraise]
  rw [startWalk] at hrun
  cases nc with
  | some nc =>
    refine ⟨nc, ?_⟩
    simp only [getD_some] at hrun
    simp only [orElse_some, hrun, endInfo]
  | none =>
    refine ⟨{ c with type := 0 }, ?_⟩
    simp only [getD_none] at hrun
    simp only [orElse_none, hc rfl, Bool.false_eq_true, if_false, hrun, endInfo]

theorem of_fswalk_ret (h : fswalk host names junk c nc name = .ret r) :
    (nc = none → c.copen = false) ∧ (name ≠ [] → isdir c.qid = true) := by
  rw [fswalk] at h
  split at h
  · cases h
  rename_i hraise
  refine ⟨?_, fun hne => by simpa [hne] using hraise⟩
  rintro rfl
  cases hopen : c.copen with
  | false => rfl
  | true => simp [hopen] at h

theorem isdir_of_loop {w : Walk} (hne : name ≠ [])
    (h : fswalkLoop host root name (startWalk names junk c q) = (w, none)) :
    isdir q = true := by
  obtain ⟨n, ns, rfl⟩ := exists_cons_of_ne_nil hne
  by_contra hdir
  rw [fswalkLoop, if_pos (by simpa [startWalk] using hdir)] at h
  cases h

theorem startWalk_s : ((names.incref c.aux.name).node c.aux.name).s = (names.node c.aux.name).s := by
  simp [Cnames.incref, Cnames.set]

theorem fswalk_good (hname : c.aux.name < names.fresh) (hfound : Begins c nc name →
    Found host names c (nc.getD c).qid name)
    (h : fswalk host names junk c nc name = .ret r) : Good host names c (nc.getD c).qid name r := by
  obtain ⟨hopen, hdir⟩ := of_fswalk_ret h
  obtain ⟨w, err, hrun, hw, hlt, hend⟩ := @fswalkLoop_spec host _ c.aux.rootqid name
    (startWalk names junk c (nc.getD c).qid) (held_start hname)
  obtain ⟨nc', heq⟩ := fswalk_eq hopen hdir hrun
  rw [heq] at h
  split at h
  · cases h
    exact ⟨by rintro x ⟨⟩, by rintro x ⟨⟩, hw.close⟩
  split at h
  · cases h
    exact ⟨by rintro x ⟨⟩, by rintro x ⟨⟩, hw.close⟩
  rename_i hge
  obtain rfl : err = none := by
    by_contra herr
    have := hlt herr
    simp only [startWalk, length_nil] at this
    omega
  obtain ⟨-, hreach, hseen, hnil⟩ := hend rfl
  have hbegins : Begins c nc name := ⟨hopen, fun hne => ⟨hdir hne, isdir_of_loop hne hrun⟩⟩
  obtain ⟨hdesc, hlook⟩ := hfound hbegins
  rw [Walk.path, startWalk, startWalk_s] at hreach
  cases h
  have hinfo : (endInfo c name w).name = w.current := by
    rw [endInfo]
    split <;> rfl
  refine ⟨?_, ?_, ?_⟩
  · rintro x ⟨⟩
    by_cases hne : name = []
    · obtain rfl := hnil hne
      obtain ⟨st, hst, hq⟩ := hdesc hne
      refine ⟨st, ?_, ?_⟩
      · rw [hinfo]
        exact (congrArg host.xstat startWalk_s).trans hst
      · simpa [endInfo, hne, startWalk] using hq
    · obtain ⟨hst, hq⟩ := hseen (.inr (hlook hne))
      refine ⟨w.st, ?_, hq, ?_⟩
      · rw [hinfo]
        exact hst
      · simp [endInfo, hne]
  · rintro x ⟨⟩
    rw [hinfo]
    exact hreach
  · change Balanced names w.names (some (endInfo c name w).name)
    rw [hinfo]
    exact hw.balanced

theorem fswalk_clone (hbegins : Begins c nc name) {w : Walk}
    (hrun : fswalkLoop host c.aux.rootqid name (startWalk names junk c (nc.getD c).qid) = (w, none))
    (hlen : w.qids.length = name.length) :
    ∃ r, fswalk host names junk c nc name = .ret r ∧ r.names = w.names ∧
      ∃ x ∈ r.clone, x.qid = w.qid ∧ x.aux = endInfo c name w := by
  obtain ⟨nc', heq⟩ := fswalk_eq hbegins.1 (fun hne => (hbegins.2 hne).1) hrun
  rw [if_neg (by simp), if_neg (by omega)] at heq
  exact ⟨_, heq, rfl, _, rfl, rfl, rfl⟩

theorem not_good (hbegins : Begins c nc name) (hnot : ¬ Found host names c (nc.getD c).qid name) :
    ∃ junk r, fswalk host names junk c nc name = .ret r ∧ ¬ Good host names c (nc.getD c).qid name r := by
  by_cases hne : name = []
  · subst hne
    obtain ⟨r, hr, hnames, x, hx, hqid, haux⟩ := @fswalk_clone host names ⟨0, 0, 0, 0, 0, 0⟩
      _ _ _ hbegins _ rfl rfl
    refine ⟨_, r, hr, fun hgood => hnot ⟨fun _ => ?_, fun h => absurd rfl h⟩⟩
    obtain ⟨st, hst, hq, hrest⟩ := hgood.describes x hx
    rw [hnames, haux] at hst
    rw [hqid] at hq
    rw [haux] at hrest
    exact ⟨st, (congrArg host.xstat startWalk_s.symm).trans hst, hq, hrest⟩
  have hstays : ∀ n ∈ name, stays c.aux.rootqid (nc.getD c).qid n = true := by
    intro n hn
    by_contra hlook
    exact hnot ⟨fun h => absurd h hne, fun _ => ⟨n, hn, by simpa using hlook⟩⟩
  -- an owner that the file does not have
  obtain ⟨uid, huid⟩ : ∃ uid : Int32, ∀ st, host.xstat (names.node c.aux.name).s = some st → uid ≠ st.st_uid := by
    cases host.xstat (names.node c.aux.name).s with
    | none => exact ⟨0, by rintro st ⟨⟩⟩
    | some st =>
      by_cases h0 : st.st_uid = 0
      · refine ⟨1, ?_⟩
        rintro st' ⟨⟩
        rw [h0]
        decide
      · refine ⟨0, ?_⟩
        rintro st' ⟨⟩
        exact Ne.symm h0
  let junk : Stat := ⟨0, 0, 0, uid, 0, 0⟩
  obtain ⟨qids, hrun, hlen⟩ := @fswalkLoop_stays host c.aux.rootqid name
    (startWalk names junk c (nc.getD c).qid) (hbegins.2 hne).2 hstays
  obtain ⟨r, hr, hnames, x, hx, hqid, haux⟩ := fswalk_clone hbegins hrun (by simpa [startWalk] using hlen)
  refine ⟨junk, r, hr, fun hgood => ?_⟩
  obtain ⟨st, hst, -, hu, -⟩ := hgood.describes x hx
  rw [hnames, haux, endInfo, if_pos hne] at hst
  rw [haux, endInfo, if_pos hne] at hu
  exact huid st ((congrArg host.xstat startWalk_s.symm).trans hst) hu

/-- When the walk is right, whatever is in the `struct stat` at first. -/
theorem fswalk_good_iff (host : Host) (names : Cnames) (c : Chan) (nc : Option Chan) (name : List Bytes)
    (hname : c.aux.name < names.fresh) :
    (∀ junk r, fswalk host names junk c nc name = .ret r → Good host names c (nc.getD c).qid name r) ↔
      (Begins c nc name → Found host names c (nc.getD c).qid name) := by
  refine ⟨fun h hbegins => ?_, fun hfound junk r h => fswalk_good hname hfound h⟩
  by_contra hnot
  obtain ⟨junk, r, hr, hbad⟩ := not_good hbegins hnot
  exact hbad (h junk r hr)

def oneDir : Host := ⟨fun f => if f = [slash] then some ⟨1, 2, 0o040755, 7, 7, 0⟩ else none, fun _ => none⟩

def oneDirRoot : Chan :=
  ⟨3, fsqid ⟨1, 2, 0o040755, 7, 7, 0⟩, false, ⟨7, 7, 0o040755, false, none, 0, fsqid ⟨1, 2, 0o040755, 7, 7, 0⟩⟩⟩

def oneDirNames : Cnames := ⟨fun _ => ⟨1, [slash]⟩, 1⟩

/-- The directory and a file `f` in it. -/
def dirAndFile : Host :=
  ⟨fun f => if f = [slash, 102] then some ⟨1, 3, 0o100644, 8, 8, 0⟩ else oneDir.stat f, fun _ => none⟩

theorem fswalk_good_iff_file : Found dirAndFile oneDirNames oneDirRoot oneDirRoot.qid [[102]] ∧
    (∃ r, fswalk dirAndFile oneDirNames ⟨0, 0, 0, 99, 0, 0⟩ oneDirRoot none [[102]] = .ret r ∧ r.clone.isSome) ∧
    ((∀ junk r, fswalk dirAndFile oneDirNames junk oneDirRoot none [[102]] = .ret r →
        Good dirAndFile oneDirNames oneDirRoot oneDirRoot.qid [[102]] r) ↔
      (Begins oneDirRoot none [[102]] → Found dirAndFile oneDirNames oneDirRoot oneDirRoot.qid [[102]])) :=
  ⟨⟨nofun, fun _ => ⟨[102], List.mem_singleton_self _, rfl⟩⟩, ⟨_, rfl, rfl⟩,
    fswalk_good_iff dirAndFile oneDirNames oneDirRoot none [[102]] (by decide)⟩

/-- A walk of `.` gives the clone an owner that the directory does not have. -/
theorem not_fswalk_good : ∃ junk r x, fswalk oneDir oneDirNames junk oneDirRoot none [[Names.dot]] = .ret r ∧
    x ∈ r.clone ∧ ¬ Describes oneDir r.names x := by
  refine ⟨⟨0, 0, 0, 99, 0, 0⟩, _, _, rfl, rfl, ?_⟩
  rintro ⟨st, hst, -, huid, -⟩
  cases hst
  revert huid
  decide

end Node9.Devfs
