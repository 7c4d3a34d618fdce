import Node9.Dev

/-!
# Walking in a device (`devwalk` in `dev.c`)

A generator is asked with the name to be walked to, for its slots from 0 on; `DEVDOTDOT` asks for the directory above,
which every generator has. `devgen`, whose entries are those of a table, is only good for the first directory of its
table. The clone that `devwalk` makes is not yet the device's until all of the names have been walked. There is memory
for it.
-/

namespace Node9.Dev
open Buf

variable {δ : Type}

def Enotdir : String := "not a directory"

def Enonexist : String := "file does not exist"

def QTDIR : UInt8 := 0x80

/-- What the walk looks at; the rest, which only the device knows, is `aux`. -/
structure Chan (δ : Type) where
  type : Nat
  qid : Qid
  /-- `COPEN` -/
  copen : Bool
  aux : δ

def Chan.isDir (c : Chan δ) : Bool := c.qid.type &&& QTDIR ≠ 0

structure Devgen (δ : Type) where
  gen : Chan δ → CStr → Nat → Gen
  /-- the qid that `DEVDOTDOT` fills in -/
  dotdot : Chan δ → Qid
  /-- for `devgen`: `tab[0].qid.path` -/
  table : Option UInt64

structure Walkqid (δ : Type) where
  clone : Option (Chan δ)
  qid : List Qid

/-- What `devwalk` returns, what it puts into `up->env->errstr`, and the channels that it has closed. -/
structure Walked (δ : Type) where
  wq : Option (Walkqid δ)
  errstr : Option String
  closed : List (Chan δ)

/-- How a call of `devwalk` ends. -/
inductive Ret (δ : Type)
  | panic
  /-- an error that is raised in the caller -/
  | raised (err : String)
  | ret (r : Walked δ)

/-- `.` -/
def dot : CStr := ⟨[46], by decide⟩

/-- `..` -/
def dotdot : CStr := ⟨[46, 46], by decide⟩

/-- The loop over the slots, for an entry called `n`. -/
def find (gen : Nat → Gen) (n : CStr) : Nat → Nat → Option (Option Qid)
  | 0, _ => none
  | k + 1, i =>
    match gen i with
    | .stop => some none
    | .skip => find gen n k (i + 1)
    | .entry d => if n = d.dir.name.str then some (some d.dir.qid) else find gen n k (i + 1)

/-- The loop over the names: the channel, the qids, and why it has stopped before the end. -/
def walkNames (g : Devgen δ) (k : Nat) : List CStr → Chan δ → List Qid → Option (Chan δ × List Qid × Option String)
  | [], nc, qid => some (nc, qid, none)
  | n :: names, nc, qid =>
    if !nc.isDir then some (nc, qid, some Enotdir)
    else if n = dot then walkNames g k names nc (qid ++ [nc.qid])
    else if n = dotdot then
      let nc := { nc with qid := g.dotdot nc }
      walkNames g k names nc (qid ++ [nc.qid])
    else if g.table.any (nc.qid.path != ·) then some (nc, qid, some Enonexist)
    else
      match find (g.gen nc n) n k 0 with
      | none => none
      | some none => some (nc, qid, some Enonexist)
      | some (some q) => walkNames g k names { nc with qid := q } (qid ++ [q])

def devclone (c : Chan δ) : Option (Chan δ) := if c.copen then none else some { c with copen := false }

/-- `nc` is the channel to be walked, if there is one already. -/
def devwalk (g : Devgen δ) (k : Nat) (c : Chan δ) (nc : Option (Chan δ)) (names : List CStr) : Option (Ret δ) :=
  if names ≠ [] ∧ !c.isDir then some (.raised Enotdir)
  else
    -- the device does not know about the clone yet
    match nc.orElse fun _ => (devclone c).map fun nc => { nc with type := 0 } with
    | none => some .panic
    | some start =>
      let alloc := nc.isNone
      (walkNames g k names start []).map fun r =>
        let (nc, qid, err) := r
        let closed := if alloc then [nc] else []
        if err.isSome ∧ qid = [] then .ret ⟨none, err, closed⟩
        else if qid.length < names.length then
          -- only a name that is not there is told
          .ret ⟨some ⟨none, qid⟩, err.filter (· = Enonexist), closed⟩
        else .ret ⟨some ⟨some { nc with type := c.type }, qid⟩, none, []⟩

/-! ### What a walk should do -/

/-- The first entry called `n`, before there are no more. -/
def Entry (gen : Nat → Gen) (n : CStr) (q : Qid) : Prop :=
  ∃ i d, gen i = .entry d ∧ n = d.dir.name.str ∧ d.dir.qid = q ∧
    ∀ j < i, gen j ≠ .stop ∧ ∀ d', gen j = .entry d' → n ≠ d'.dir.name.str

/-- The name can be walked from a channel, to this qid. -/
def Next (g : Devgen δ) (c : Chan δ) (n : CStr) (q : Qid) : Prop :=
  c.isDir = true ∧
    ((n = dot ∧ q = c.qid) ∨ (n = dotdot ∧ q = g.dotdot c) ∨
      (n ≠ dot ∧ n ≠ dotdot ∧ (∀ p ∈ g.table, c.qid.path = p) ∧ Entry (g.gen c n) n q))

/-- The qids of the longest prefix of the names that can be walked. -/
inductive Longest (g : Devgen δ) : Chan δ → List CStr → List Qid → Prop
  | nil (c) : Longest g c [] []
  | stop {c n names} : (∀ q, ¬ Next g c n q) → Longest g c (n :: names) []
  | step {c n names q qs} : Next g c n q → Longest g { c with qid := q } names qs → Longest g c (n :: names) (q :: qs)

def start (c : Chan δ) (nc : Option (Chan δ)) : Chan δ := nc.getD { c with type := 0, copen := false }

structure Walks (g : Devgen δ) (c : Chan δ) (nc : Option (Chan δ)) (names : List CStr) (r : Walked δ) : Prop where
  nil_iff : r.wq = none ↔ ∃ n ns, names = n :: ns ∧ ∀ q, ¬ Next g (start c nc) n q
  longest : ∀ w, r.wq = some w → Longest g (start c nc) names w.qid
  clone : ∀ w, r.wq = some w → (w.clone.isSome ↔ w.qid.length = names.length)
  /-- the clone is the device's, and has come to the last qid -/
  attached : ∀ w nc', r.wq = some w → w.clone = some nc' →
    nc'.type = c.type ∧ nc'.qid = w.qid.getLast?.getD (start c nc).qid
  /-- a clone of its own is returned, or closed: without the device, unless that has index 0 -/
  released : nc = none → ((∃ w ∈ r.wq, w.clone.isSome) ∧ r.closed = []) ∨
    ((¬ ∃ w ∈ r.wq, w.clone.isSome) ∧ ∃ x, r.closed = [x] ∧ (x.type = c.type ↔ c.type = 0))

variable {g : Devgen δ} {c nc : Chan δ} {n : CStr} {nc' : Option (Chan δ)} {names : List CStr} {qid qs : List Qid}
    {q : Qid} {gen : Nat → Gen}
  {i k : Nat}

theorem any_ne_iff {o : Option UInt64} {x : UInt64} : o.any (x != ·) = true ↔ ¬ ∀ p ∈ o, x = p := by
  cases o with
  | none => simp
  | some p => simp

theorem Entry.unique {q' : Qid} (h : Entry gen n q) (h' : Entry gen n q') : q = q' := by
  obtain ⟨i, d, hi, hn, rfl, hfirst⟩ := h
  obtain ⟨j, e, hj, hn', rfl, hfirst'⟩ := h'
  rcases Nat.lt_trichotomy i j with hlt | rfl | hlt
  · exact absurd hn ((hfirst' i hlt).2 d hi)
  · cases hi.symm.trans hj
    rfl
  · exact absurd hn' ((hfirst j hlt).2 e hj)

theorem find_spec {stop : Nat} (hs : Stops gen stop) (hi : i ≤ stop) (hk : stop - i < k)
    (hbefore : ∀ j < i, ∀ d, gen j = .entry d → n ≠ d.dir.name.str) :
    (∃ q, find gen n k i = some (some q) ∧ Entry gen n q) ∨ (find gen n k i = some none ∧ ∀ q, ¬ Entry gen n q) := by
  induction k generalizing i with
  | zero => omega
  | succ k ih =>
    rw [find]
    cases hg : gen i with
    | stop =>
      obtain rfl := hs.eq hi hg
      refine .inr ⟨rfl, ?_⟩
      rintro q ⟨j, d, hj, hn, -, hfirst⟩
      rcases lt_or_ge j i with hlt | hge
      · exact hbefore j hlt d hj hn
      · rcases Nat.eq_or_lt_of_le hge with rfl | hlt
        · cases hg.symm.trans hj
        · exact (hfirst i hlt).1 hg
    | skip =>
      have hlt := hs.lt hi (by rw [hg]; exact Gen.noConfusion)
      refine ih hlt (by omega) fun j hj d hd => ?_
      rcases Nat.eq_or_lt_of_le (Nat.le_of_lt_succ hj) with rfl | hj
      · cases hg.symm.trans hd
      · exact hbefore j hj d hd
    | entry d =>
      have hlt := hs.lt hi (by rw [hg]; exact Gen.noConfusion)
      dsimp only
      by_cases hn : n = d.dir.name.str
      · rw [if_pos hn]
        exact .inl ⟨_, rfl, i, d, hg, hn, rfl, fun j hj => ⟨hs.before j (by omega), hbefore j hj⟩⟩
      rw [if_neg hn]
      refine ih hlt (by omega) fun j hj d' hd => ?_
      rcases Nat.eq_or_lt_of_le (Nat.le_of_lt_succ hj) with rfl | hj
      · cases hg.symm.trans hd
        exact hn
      · exact hbefore j hj d' hd

theorem walkNames_cons (hstop : ∃ i, g.gen nc n i = .stop) :
    (∃ q, Next g nc n q ∧ ∃ K, ∀ k ≥ K, ∀ names qid,
        walkNames g k (n :: names) nc qid = walkNames g k names { nc with qid := q } (qid ++ [q])) ∨
      ((∀ q, ¬ Next g nc n q) ∧
        ∃ K err, ∀ k ≥ K, ∀ names qid, walkNames g k (n :: names) nc qid = some (nc, qid, some err)) := by
  by_cases hdir : nc.isDir = true
  · have hdir' : ¬ (!nc.isDir) = true := by simp [hdir]
    by_cases hdot : n = dot
    · refine .inl ⟨nc.qid, ⟨hdir, .inl ⟨hdot, rfl⟩⟩, 0, fun k _ names qid => ?_⟩
      rw [walkNames, if_neg hdir', if_pos hdot]
    by_cases hdd : n = dotdot
    · refine .inl ⟨g.dotdot nc, ⟨hdir, .inr (.inl ⟨hdd, rfl⟩)⟩, 0, fun k _ names qid => ?_⟩
      rw [walkNames, if_neg hdir', if_neg hdot, if_pos hdd]
    by_cases htab : g.table.any (nc.qid.path != ·) = true
    · refine .inr ⟨?_, 0, Enonexist, fun k _ names qid => ?_⟩
      · rintro q ⟨-, ⟨h, -⟩ | ⟨h, -⟩ | ⟨-, -, h, -⟩⟩
        · exact hdot h
        · exact hdd h
        · exact any_ne_iff.1 htab h
      · rw [walkNames, if_neg hdir', if_neg hdot, if_neg hdd, if_pos htab]
    obtain ⟨stop, hs⟩ := exists_stops hstop
    have htab' : ∀ p ∈ g.table, nc.qid.path = p := by
      by_contra h
      exact htab (any_ne_iff.2 h)
    have hfind (k : Nat) (hk : k ≥ stop + 1) := find_spec (n := n) (k := k) hs zero_le (by omega)
      (fun j hj => absurd hj (Nat.not_lt_zero j))
    -- the entry that the loop finds does not depend on the rounds
    rcases hfind (stop + 1) le_rfl with ⟨q, -, hq⟩ | ⟨-, hnone⟩
    · refine .inl ⟨q, ⟨hdir, .inr (.inr ⟨hdot, hdd, htab', hq⟩)⟩, stop + 1, fun k hk names qid => ?_⟩
      rcases hfind k hk with ⟨q', hf, hq'⟩ | ⟨-, hnone⟩
      · rw [walkNames, if_neg hdir', if_neg hdot, if_neg hdd, if_neg htab, hf, hq.unique hq']
      · exact absurd hq (hnone q)
    refine .inr ⟨?_, stop + 1, Enonexist, fun k hk names qid => ?_⟩
    · rintro q ⟨-, ⟨h, -⟩ | ⟨h, -⟩ | ⟨-, -, -, h⟩⟩
      · exact hdot h
      · exact hdd h
      · exact hnone q h
    · rcases hfind k hk with ⟨q', -, hq'⟩ | ⟨hf, -⟩
      · exact absurd hq' (hnone q')
      · rw [walkNames, if_neg hdir', if_neg hdot, if_neg hdd, if_neg htab, hf]
  · refine .inr ⟨fun q hq => hdir hq.1, 0, Enotdir, fun k _ names qid => ?_⟩
    rw [walkNames, if_pos (by simpa using hdir)]

theorem walkNames_spec (hstop : ∀ c n, ∃ i, g.gen c n i = .stop) (names : List CStr) (nc : Chan δ) :
    ∃ qs, Longest g nc names qs ∧ ∃ K err, (err = none ↔ qs.length = names.length) ∧ ∀ k ≥ K, ∀ qid,
      walkNames g k names nc qid = some ({ nc with qid := qs.getLast?.getD nc.qid }, qid ++ qs, err) := by
  induction names generalizing nc with
  | nil => exact ⟨[], .nil nc, 0, none, by simp, fun k _ qid => by simp [walkNames]⟩
  | cons n names ih =>
    rcases walkNames_cons (hstop nc n) with ⟨q, hq, K, hK⟩ | ⟨hnone, K, err, hK⟩
    · obtain ⟨qs, hqs, K', err, herr, hK'⟩ := ih { nc with qid := q }
      refine ⟨q :: qs, .step hq hqs, max K K', err, by simpa using herr, fun k hk qid => ?_⟩
      rw [hK k (by omega), hK' k (by omega), List.append_assoc, List.getLast?_cons]
      rfl
    · exact ⟨[], .stop hnone, K, some err, by simp, fun k hk qid => by simp [hK k hk]⟩

theorem Longest.eq_nil_iff (h : Longest g c names qs) :
    (names ≠ [] ∧ qs = []) ↔ ∃ n ns, names = n :: ns ∧ ∀ q, ¬ Next g c n q := by
  cases h with
  | nil => simp
  | stop hnone => exact ⟨fun _ => ⟨_, _, rfl, hnone⟩, fun _ => ⟨List.cons_ne_nil _ _, rfl⟩⟩
  | step hq _ =>
    refine ⟨fun h => absurd h.2 (List.cons_ne_nil _ _), ?_⟩
    rintro ⟨n, ns, heq, hnone⟩
    cases heq
    exact absurd hq (hnone _)

theorem Longest.length_le (h : Longest g c names qs) : qs.length ≤ names.length := by
  induction h with
  | nil => exact le_rfl
  | stop => exact zero_le
  | step _ _ ih => exact Nat.succ_le_succ ih

theorem start_eq (hopen : nc' = none → c.copen = false) :
    (nc'.orElse fun _ => (devclone c).map fun nc => { nc with type := 0 }) = some (start c nc') := by
  cases nc' with
  | some x => rfl
  | none => simp [devclone, hopen rfl, start]

/-- What is returned, by where the walk has come to. -/
def walked (c s : Chan δ) (alloc : Bool) (names : List CStr) (qs : List Qid) (err : Option String) : Walked δ :=
  let nc := { s with qid := qs.getLast?.getD s.qid }
  let closed := if alloc then [nc] else []
  if err.isSome ∧ qs = [] then ⟨none, err, closed⟩
  else if qs.length < names.length then ⟨some ⟨none, qs⟩, err.filter (· = Enonexist), closed⟩
  else ⟨some ⟨some { nc with type := c.type }, qs⟩, none, []⟩

theorem devwalk_eq (hdir : c.isDir = true) (hopen : nc' = none → c.copen = false)
    (hstop : ∀ c n, ∃ i, g.gen c n i = .stop) :
    ∃ qs, Longest g (start c nc') names qs ∧ ∃ K err, (err = none ↔ qs.length = names.length) ∧
      ∀ k ≥ K, devwalk g k c nc' names = some (.ret (walked c (start c nc') nc'.isNone names qs err)) := by
  obtain ⟨qs, hqs, K, err, herr, hK⟩ := walkNames_spec hstop names (start c nc')
  refine ⟨qs, hqs, K, err, herr, fun k hk => ?_⟩
  rw [devwalk, if_neg (by simp [hdir]), start_eq hopen]
  simp only [hK k hk, List.nil_append, Option.map_some, walked]
  split
  · rfl
  · split <;> rfl

theorem dropped {x : Chan δ} {r : Walked δ} (hx : x.type = (start c nc').type) (hw : ∀ w ∈ r.wq, w.clone = none)
    (hr : r.closed = if nc'.isNone then [x] else []) :
    nc' = none → ((∃ w ∈ r.wq, w.clone.isSome) ∧ r.closed = []) ∨
      ((¬ ∃ w ∈ r.wq, w.clone.isSome) ∧ ∃ x, r.closed = [x] ∧ (x.type = c.type ↔ c.type = 0)) := by
  rintro rfl
  refine .inr ⟨?_, x, hr, ?_⟩
  · rintro ⟨w, hmem, hsome⟩
    rw [hw w hmem] at hsome
    exact Bool.false_ne_true hsome
  · rw [hx]
    exact eq_comm

theorem walked_walks {err : Option String} (hqs : Longest g (start c nc') names qs)
    (herr : err = none ↔ qs.length = names.length) :
    Walks g c nc' names (walked c (start c nc') nc'.isNone names qs err) := by
  have hlen := hqs.length_le
  rw [walked]
  split
  case isTrue h =>
    have hne : names ≠ [] := by
      rintro rfl
      simp [herr.2 (by simp [h.2])] at h
    exact {
      nil_iff := ⟨fun _ => hqs.eq_nil_iff.1 ⟨hne, h.2⟩, fun _ => rfl⟩
      longest := by rintro w ⟨⟩
      clone := by rintro w ⟨⟩
      attached := by rintro w nc ⟨⟩
      released := dropped (x := { start c nc' with qid := qs.getLast?.getD (start c nc').qid }) rfl
        (by rintro w ⟨⟩) rfl }
  case isFalse h =>
    -- a name has been walked, or there was none
    have hsome : ¬ ∃ n ns, names = n :: ns ∧ ∀ q, ¬ Next g (start c nc') n q := by
      intro hnone
      obtain ⟨hne, rfl⟩ := hqs.eq_nil_iff.2 hnone
      refine h ⟨?_, rfl⟩
      rw [Option.isSome_iff_ne_none, ne_eq, herr]
      exact fun heq => hne (List.length_eq_zero_iff.1 heq.symm)
    split
    case isTrue hlt =>
      exact {
        nil_iff := ⟨by rintro ⟨⟩, fun hnone => absurd hnone hsome⟩
        longest := by
          rintro w ⟨⟩
          exact hqs
        clone := by
          rintro w ⟨⟩
          exact ⟨by rintro ⟨⟩, fun heq => absurd heq (ne_of_lt hlt)⟩
        attached := by rintro w nc ⟨⟩ ⟨⟩
        released := dropped (x := { start c nc' with qid := qs.getLast?.getD (start c nc').qid }) rfl
          (by rintro w ⟨⟩; rfl) rfl }
    case isFalse hge =>
      exact {
        nil_iff := ⟨by rintro ⟨⟩, fun hnone => absurd hnone hsome⟩
        longest := by
          rintro w ⟨⟩
          exact hqs
        clone := by
          rintro w ⟨⟩
          exact ⟨fun _ => le_antisymm hlen (le_of_not_gt hge), fun _ => rfl⟩
        attached := by
          rintro w nc ⟨⟩ ⟨⟩
          exact ⟨rfl, rfl⟩
        released := fun _ => .inl ⟨⟨_, rfl, rfl⟩, rfl⟩ }

/-- A walk in a device does what a walk should do, from a directory that is not open. -/
theorem devwalk_walks (g : Devgen δ) (c : Chan δ) (nc : Option (Chan δ)) (names : List CStr)
    (hstop : ∀ c n, ∃ i, g.gen c n i = .stop) (hdir : c.isDir = true) (hopen : nc = none → c.copen = false) :
    ∃ K r, Walks g c nc names r ∧ ∀ k ≥ K, devwalk g k c nc names = some (.ret r) := by
  obtain ⟨qs, hqs, K, err, herr, hK⟩ := devwalk_eq hdir hopen hstop
  exact ⟨K, _, walked_walks hqs herr, hK⟩

/-- A file called `z`. -/
def fileZ : Dir CharPtr := ⟨0, 0, ⟨7, 0, 0⟩, 0, 0, 0, 0, some ⟨[122], by decide⟩, none, none, none⟩

/-- In slot 0 there is nothing, in slot 1 `fileZ`. -/
def oneFile : Devgen Unit where
  gen _ _ i := if i = 0 then .skip else if i = 1 then .entry ⟨fileZ, by decide⟩ else .stop
  dotdot c := c.qid
  table := none

/-- From the directory to `z`, which is none. -/
theorem devwalk_walks_oneFile :
    ∃ K r, Walks oneFile ⟨1, ⟨0, 0, QTDIR⟩, false, ()⟩ none [dotdot, ⟨[122], by decide⟩, dot] r ∧
      ∀ k ≥ K, devwalk oneFile k ⟨1, ⟨0, 0, QTDIR⟩, false, ()⟩ none [dotdot, ⟨[122], by decide⟩, dot] = some (.ret r) :=
  devwalk_walks oneFile ⟨1, ⟨0, 0, QTDIR⟩, false, ()⟩ none [dotdot, ⟨[122], by decide⟩, dot] (fun _ _ => ⟨2, rfl⟩)
    (by decide) (fun _ => rfl)

/-- The clone of an open channel cannot be made; and the device of index 0 is asked to close a clone that it was not
given. -/
theorem not_devwalk_walks :
    (∀ k, devwalk oneFile k ⟨1, ⟨0, 0, QTDIR⟩, true, ()⟩ none [dot] = some .panic) ∧
      ∀ k, ∃ r, devwalk oneFile (k + 3) ⟨0, ⟨0, 0, QTDIR⟩, false, ()⟩ none [⟨[98], by decide⟩] = some (.ret r) ∧
        r.wq = none ∧ ∃ x, r.closed = [x] ∧ x.type = 0 := by
  refine ⟨fun k => rfl, fun k => ⟨_, rfl, rfl, _, rfl, rfl⟩⟩

end Node9.Dev
