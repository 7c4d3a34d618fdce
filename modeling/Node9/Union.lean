import Node9.FsDir

/-!
# Reading unions (`unionread`, `rread` and `kseek` in `sysfile.c`, `Exread` in `exportfs.c`)

A union is read through its members, one after the other: `uri` says which, `umc` is the channel to it once it is open.
What there is of a device is an open directory and how it is read (`Directory`); the directories of devices and those of
the host are such (`Directory.dev`, `Directory.host`). Any request to a device can raise an error, which ends the
reading of that member.
-/

namespace Node9.Sysfile
open Buf Listing Steps List
open Option hiding mem_map

/-- A directory of a device, by the states that a channel to it can have: what `open` makes, what `read` does at an
offset. It gives what is left of its entries, as many as go into the buffer. -/
structure Directory (σ : Type) where
  opened : σ
  read : σ → Bytes → Nat → Except String Bytes × σ
  left : σ → List Bytes
  /-- the channel has been read up to this offset -/
  At : σ → Nat → Prop
  opened_at : At opened 0
  ne_nil : ∀ s, ∀ e ∈ left s, e ≠ []
  read_ok : ∀ s off va, At s off → va.length < 2 ^ 31 → ¬ Short (left s) va.length →
    ∃ s', read s va off = (.ok (fill va.length (left s)).1.flatten, s') ∧ left s' = (fill va.length (left s)).2 ∧
      At s' (off + (fill va.length (left s)).1.flatten.length)

/-- `c->umc`: the device, and what the channel has of it. -/
structure Umc (σ : Type) where
  dir : Directory σ
  st : σ
  offset : Nat

structure Chan (σ : Type) where
  uri : Nat
  umc : Option (Umc σ)

/-- Which request to the device of a member raises an error. -/
inductive Raise
  | opening
  | reading
deriving DecidableEq

variable {σ : Type}

/-- `read` of `c->umc`. -/
def readUmc (raise : Option Raise) (u : Umc σ) (va : Bytes) : Bytes × Option (Umc σ) :=
  if raise = some .reading then ([], some u)
  else
    let (r, st) := u.dir.read u.st va u.offset
    match r with
    | .ok r => (r, some ⟨u.dir, st, u.offset + r.length⟩)
    | .error _ => ([], some ⟨u.dir, st, u.offset⟩)

/-- What is done with one member (`to` of the `Mount`, which can be nil). -/
def readMember (m : Option (Directory σ)) (raise : Option Raise) (umc : Option (Umc σ)) (va : Bytes) :
    Bytes × Option (Umc σ) :=
  match m with
  | none => ([], umc)
  | some dir =>
    match umc.orElse fun _ => if raise = some .opening then none else some ⟨dir, dir.opened, 0⟩ with
    | none => ([], none)
    | some u => readUmc raise u va

/-- The loop over the members from `uri` on. -/
def unionreadLoop (raise : Nat → Option Raise) (va : Bytes) : List (Option (Directory σ)) → Chan σ → Bytes × Chan σ
  | [], c => ([], c)
  | m :: mount, c =>
    let (r, umc) := readMember m (raise c.uri) c.umc va
    if r ≠ [] then (r, { c with umc := umc }) else unionreadLoop raise va mount ⟨c.uri + 1, none⟩

def unionread (mount : List (Option (Directory σ))) (raise : Nat → Option Raise) (c : Chan σ) (va : Bytes) :
    Bytes × Chan σ :=
  unionreadLoop raise va (mount.drop c.uri) c

def unionrewind (_c : Chan σ) : Chan σ := ⟨0, none⟩

/-- An open union: its channel, and the offset in the `Fid` if it is exported. -/
structure Union (σ : Type) where
  chan : Chan σ
  foffset : Nat

def opened : Union σ := ⟨⟨0, none⟩, 0⟩

def Eisdir : String := "file is a directory"
def Ebadarg : String := "bad arg in system call"
def Eseekdir : String := "can't seek on a directory"

/-- The calls on an open union, with the errors that devices raise during it. -/
inductive Call
  | kread (raise : Nat → Option Raise) (va : Bytes)
  | kseek (off : Int) (whence : Int)
  | tread (raise : Nat → Option Raise) (offset : Nat) (va : Bytes)

/-- `Exread` of a union. -/
def Exread (mount : List (Option (Directory σ))) (raise : Nat → Option Raise) (s : Union σ) (offset : Nat)
    (va : Bytes) :
    Except String Bytes × Union σ :=
  if offset ≠ s.foffset ∧ offset ≠ 0 then (.error Eseekdir, s)
  else
    let c := if offset ≠ s.foffset then { s.chan with uri := 0 } else s.chan
    let (r, c) := unionread mount raise c va
    (.ok r, ⟨c, offset + r.length⟩)

/-- `kseek` of a directory; the result is the offset. -/
def kseek (s : Union σ) (off whence : Int) : Except String Int × Union σ :=
  if whence = 0 then if off ≠ 0 then (.error Eisdir, s) else (.ok off, { s with chan := unionrewind s.chan })
  else if whence = 1 ∨ whence = 2 then (.error Eisdir, s)
  else (.error Ebadarg, s)

/-! ### The directories of devices and of the host -/

/-- What a channel has of its device: `c->dri`, and `FS(c)` if it is one of the host's. -/
structure DirSt where
  dri : Nat
  fs : Devfs.Fs

def Directory.dev (gen : Nat → Dev.Gen) (stop : Nat) (hs : Dev.Stops gen stop) : Directory DirSt where
  opened := ⟨0, ⟨[], none, 0, false⟩⟩
  read := fun s va _ =>
    match Dev.devdirread gen (stop + 1) va s.dri with
    | none => (.error "", s)
    | some r => (r.result, { s with dri := r.dri })
  left := fun s => Dev.entries gen s.dri stop
  At := fun s _ => s.dri ≤ stop
  opened_at := Nat.zero_le stop
  ne_nil := fun _ => Dev.entries_ne_nil
  read_ok := by
    intro s off va hdri hlt hshort
    obtain ⟨buf', dri', hr, hle, hleft, htake⟩ := Dev.devdirreadLoop_fill (k := stop + 1) (m := 0) hs hdri (by omega)
      (Nat.zero_le va.length) (by omega) fun _ => hshort
    rw [Nat.sub_zero, Nat.zero_add] at hr htake
    rw [Nat.sub_zero] at hleft
    refine ⟨{ s with dri := dri' }, ?_, hleft, hle⟩
    rw [Dev.devdirread, hr]
    exact Prod.ext (congrArg Except.ok htake) rfl

section
variable {gen : Nat → Dev.Gen} {stop : Nat} {hs : Dev.Stops gen stop} {s : DirSt} {va : Bytes}

theorem dev_read_none (n : Nat) (h : Dev.devdirread gen (stop + 1) va s.dri = none) :
    (Directory.dev gen stop hs).read s va n = (.error "", s) := by
  simp only [Directory.dev, h]

theorem dev_read_some {r : Dev.DirRead} (n : Nat) (h : Dev.devdirread gen (stop + 1) va s.dri = some r) :
    (Directory.dev gen stop hs).read s va n = (r.result, { s with dri := r.dri }) := by
  simp only [Directory.dev, h]

end

def Directory.host (d : Devfs.OpenDir) (h : Devfs.Files) (hname : (Devfs.slashed d.name).length < Devfs.MAXPATH) :
    Directory DirSt where
  opened := ⟨0, d.opened⟩
  read := fun s va off =>
    match Devfs.fsdirread d h s.fs va off with
    | none => (.error "", s)
    | some (fs, r) => (.ok r, { s with fs := fs })
  left := fun s => d.encs h s.fs.left
  At := fun s off => s.fs.offset = off ∧ (s.fs.eod = true → s.fs.left = [])
  opened_at := ⟨rfl, fun h => by cases h⟩
  ne_nil := fun _ => Devfs.encs_ne_nil
  read_ok := by
    rintro s off va ⟨rfl, heod⟩ - -
    obtain ⟨fs', r, hread, ⟨us, hus, -⟩, hleft, rfl, hoff, heod'⟩ := @Devfs.fsdirread_spec _ h _ va hname heod
    refine ⟨{ s with fs := fs' }, by rw [hread], hleft, hoff, fun h => ?_⟩
    rcases heod' h with h | h
    · exact (List.append_eq_nil_iff.1 (hus.symm.trans (heod h))).2
    · exact h

/-! ### What a union should list -/

def listing (m : Option (Directory σ)) : List Bytes := m.elim [] fun d => d.left d.opened

/-- `b` lists the members from the `k`th on, in their order: the whole of each, or the first of its entries if it has
raised an error. -/
inductive Listed (raised : Nat → Prop) : Nat → List (List Bytes) → Bytes → Prop
  | nil (k) : Listed raised k [] []
  | cons {k us es ps b} : us <+: es → us = es ∨ raised k → Listed raised (k + 1) ps b →
      Listed raised k (es :: ps) (us.flatten ++ b)

variable {mount : List (Option (Directory σ))} {m : Option (Directory σ)} {raised raised' : Nat → Prop}
  {raise : Nat → Option Raise} {k : Nat} {ps : List (List Bytes)} {es : List Bytes} {b r va : Bytes} {c c' : Chan σ}
  {u : Umc σ} {umc : Option (Umc σ)}

theorem listed_all (raised : Nat → Prop) (k : Nat) (ps : List (List Bytes)) :
    Listed raised k ps ps.flatten.flatten := by
  induction ps generalizing k with
  | nil => exact .nil k
  | cons es ps ih =>
    rw [flatten_cons, flatten_append]
    exact .cons (prefix_refl es) (.inl rfl) (ih (k + 1))

theorem Listed.all (h : Listed raised k ps b) (hno : ∀ i, ¬ raised i) : b = ps.flatten.flatten := by
  induction h with
  | nil k => rfl
  | @cons k us es ps b _ hus _ ih =>
    obtain rfl := hus.resolve_right (hno k)
    rw [ih, flatten_cons, flatten_append]

theorem Listed.append {us : List Bytes} (h : Listed raised k (es :: ps) b) :
    Listed raised k ((us ++ es) :: ps) (us.flatten ++ b) := by
  cases h with
  | @cons _ vs _ _ b hpre hvs hrest =>
    rw [← append_assoc, ← flatten_append]
    exact .cons ((prefix_append_right_inj us).2 hpre) (hvs.imp_left (congrArg (us ++ ·))) hrest

theorem Listed.skip (h : Listed raised (k + 1) ps b) (hes : es = [] ∨ raised k) : Listed raised k (es :: ps) b := by
  have hnil : Listed raised k (es :: ps) (([] : List Bytes).flatten ++ b) :=
    .cons nil_prefix (hes.imp_left Eq.symm) h
  exact hnil

def Umc.left (u : Umc σ) : List Bytes := u.dir.left u.st

/-- What is left of the member at `uri`. -/
def head (m : Option (Directory σ)) (umc : Option (Umc σ)) : List Bytes :=
  match m with
  | none => []
  | some _ => umc.elim (listing m) Umc.left

/-- What is left of the members from `uri` on. -/
def pending : List (Option (Directory σ)) → Option (Umc σ) → List (List Bytes)
  | [], _ => []
  | m :: mount, umc => head m umc :: mount.map listing

/-- The channel to a member is where the reads have left it, and what is left there is of some member. -/
structure Umc.Good (mount : List (Option (Directory σ))) (u : Umc σ) : Prop where
  at_offset : u.dir.At u.st u.offset
  left : ∃ m ∈ mount, u.left ⊆ listing m

/-- A read is long enough for any of the entries. -/
def Enough (mount : List (Option (Directory σ))) (va : Bytes) : Prop :=
  0 < va.length ∧ va.length < 2 ^ 31 ∧ ∀ m ∈ mount, ∀ e ∈ listing m, e.length ≤ va.length

theorem pending_none : ∀ mount : List (Option (Directory σ)), pending mount none = mount.map listing
  | [] => rfl
  | none :: _ => rfl
  | some _ :: _ => rfl

theorem Umc.read (hu : u.Good mount) (hva : Enough mount va) :
    ∃ st, u.dir.read u.st va u.offset = (.ok (fill va.length u.left).1.flatten, st) ∧
      Umc.left ⟨u.dir, st, u.offset + (fill va.length u.left).1.flatten.length⟩ = (fill va.length u.left).2 ∧
      Umc.Good mount ⟨u.dir, st, u.offset + (fill va.length u.left).1.flatten.length⟩ := by
  obtain ⟨hat, m, hm, hleft⟩ := hu
  obtain ⟨hpos, hlt, hall⟩ := hva
  have hshort : ¬ Short u.left va.length := by
    rintro ⟨-, e, he, hlt⟩
    have hle := hall m hm e (hleft (mem_of_mem_head? he))
    omega
  obtain ⟨st, hread, hst, hat'⟩ := u.dir.read_ok u.st u.offset va hat hlt hshort
  refine ⟨st, hread, hst, hat', m, hm, ?_⟩
  have hsub : (fill va.length u.left).2 ⊆ u.left := by
    conv_rhs => rw [← fill_append va.length u.left]
    exact subset_append_right ..
  exact fun e he => hleft (hsub (hst ▸ he))

theorem fill_ne_nil (hes : es ≠ []) (hne : ∀ e ∈ es, e ≠ []) (hle : ∀ e ∈ es, e.length ≤ k) :
    (fill k es).1.flatten ≠ [] := by
  cases es with
  | nil => exact absurd rfl hes
  | cons e es =>
    have he := hle e mem_cons_self
    rw [fill, if_neg (by omega), flatten_cons]
    exact append_ne_nil_of_left_ne_nil (hne e mem_cons_self) _

/-- What an open channel gives: nothing, if there is nothing or an error, or the first of what is left. -/
theorem readUmc_cases (hu : u.Good mount) (hva : Enough mount va) (mode : Option Raise) :
    ((readUmc mode u va).1 = [] ∧ (u.left = [] ∨ mode ≠ none)) ∨
      ((readUmc mode u va).1 ≠ [] ∧ ∃ u' us, (readUmc mode u va).2 = some u' ∧ u'.Good mount ∧
        u.left = us ++ u'.left ∧ (readUmc mode u va).1 = us.flatten) := by
  unfold readUmc
  split_ifs with hmode
  · exact .inl ⟨rfl, .inr (by rw [hmode]; exact some_ne_none _)⟩
  obtain ⟨st, hread, hleft, hgood⟩ := Umc.read hu hva
  rw [hread]
  by_cases hnil : u.left = []
  · refine .inl ⟨?_, .inl hnil⟩
    dsimp only
    rw [hnil]
    rfl
  · obtain ⟨m, hm, hsub⟩ := hu.left
    have hle : ∀ e ∈ u.left, e.length ≤ va.length := fun e he => hva.2.2 m hm e (hsub he)
    refine .inr ⟨fill_ne_nil hnil (u.dir.ne_nil u.st) hle, _, _, rfl, hgood, ?_, rfl⟩
    rw [hleft, fill_append]

theorem readMember_cases (hm : m ∈ mount) (humc : ∀ u, umc = some u → u.Good mount) (hva : Enough mount va)
    (mode : Option Raise) :
    ((readMember m mode umc va).1 = [] ∧ (head m umc = [] ∨ mode ≠ none)) ∨
      ((readMember m mode umc va).1 ≠ [] ∧ m ≠ none ∧ ∃ u' us, (readMember m mode umc va).2 = some u' ∧ u'.Good mount ∧
        head m umc = us ++ u'.left ∧ (readMember m mode umc va).1 = us.flatten) := by
  cases m with
  | none => exact .inl ⟨rfl, .inl rfl⟩
  | some dir =>
    have hread : ∀ u : Umc σ, u.Good mount → head (some dir) umc = u.left →
        readMember (some dir) mode umc va = readUmc mode u va → _ := fun u hu hhead heq => by
      have h := readUmc_cases hu hva mode
      rw [← heq, ← hhead] at h
      exact h.imp_right fun h => And.intro h.1 (And.intro (some_ne_none dir) h.2)
    cases umc with
    | some u => exact hread u (humc u rfl) rfl rfl
    | none =>
      by_cases hopen : mode = some .opening
      · refine .inl ⟨?_, .inr (by rw [hopen]; exact some_ne_none _)⟩
        simp [readMember, hopen]
      · refine hread ⟨dir, dir.opened, 0⟩ ⟨dir.opened_at, _, hm, List.Subset.refl _⟩ rfl ?_
        simp [readMember, hopen]

/-- What a read gives, and the channel that it leaves. -/
structure UnionRead (mount mount' : List (Option (Directory σ))) (raise : Nat → Option Raise) (c : Chan σ) (r : Bytes)
    (c' : Chan σ) : Prop where
  uri_le : c.uri ≤ c'.uri
  le_length : c'.uri ≤ c.uri + mount'.length
  umc : ∀ u, c'.umc = some u → u.Good mount ∧ c'.uri < c.uri + mount'.length
  /-- what lists the rest lists all that was left, after what the read has given -/
  listed : ∀ (raised : Nat → Prop), (∀ i, raise i ≠ none → raised i) → ∀ b,
    Listed raised c'.uri (pending (mount'.drop (c'.uri - c.uri)) c'.umc) b → Listed raised c.uri
      (pending mount' c.umc) (r ++ b)
  ended : r = [] → c'.umc = none ∧ c.uri + mount'.length = c'.uri

theorem unionreadLoop_spec {rest : List (Option (Directory σ))} (hrest : rest ⊆ mount)
    (humc : ∀ u, c.umc = some u → u.Good mount) (hc : rest = [] → c.umc = none) (hva : Enough mount va) :
    UnionRead mount rest raise c (unionreadLoop raise va rest c).1 (unionreadLoop raise va rest c).2 := by
  induction rest generalizing c with
  | nil =>
    have hnone : c.umc = none := hc rfl
    refine ⟨le_rfl, le_rfl, fun u hu => ?_, fun _ _ _ hb => by simpa [unionreadLoop] using hb, fun _ => ⟨hnone, rfl⟩⟩
    cases hnone.symm.trans hu
  | cons m rest ih =>
    obtain ⟨hm, hrest⟩ := cons_subset.1 hrest
    rw [unionreadLoop]
    rcases readMember_cases hm humc hva (raise c.uri) with ⟨hnil, hhead⟩ | ⟨hne, hm', u', us, hu', hgood, hhead, hr⟩
    · -- the member is done
      simp only [hnil, ne_eq, not_true_eq_false, if_false]
      obtain ⟨hle, hlen, humc', hlisted, hended⟩ := ih (c := ⟨c.uri + 1, none⟩) hrest
        (fun u hu => by cases hu) fun _ => rfl
      generalize unionreadLoop raise va rest ⟨c.uri + 1, none⟩ = x at hle hlen humc' hlisted hended
      dsimp only at hle hlen humc' hended
      rw [Nat.add_right_comm] at hlen humc'
      refine ⟨by omega, hlen, humc', fun raised hraise b hb => ?_, fun hnil' => ?_⟩
      · have hsucc : x.2.uri - c.uri = x.2.uri - (c.uri + 1) + 1 := by omega
        rw [hsucc, drop_succ_cons] at hb
        have hrest' := hlisted raised hraise b hb
        rw [pending_none] at hrest'
        exact hrest'.skip (hhead.imp_right (hraise c.uri))
      · obtain ⟨h1, h2⟩ := hended hnil'
        exact ⟨h1, by rw [length_cons]; omega⟩
    · simp only [hne, ne_eq, not_false_eq_true, if_true]
      refine ⟨le_rfl, Nat.le_add_right .., fun u hu => ?_, fun raised _ b hb => ?_, fun h => absurd h hne⟩
      · rw [hu'] at hu
        cases hu
        exact ⟨hgood, Nat.lt_add_of_pos_right (Nat.succ_pos _)⟩
      · obtain ⟨dir, rfl⟩ := ne_none_iff_exists'.1 hm'
        rw [tsub_self, drop_zero, hu'] at hb
        rw [pending, hhead, hr]
        exact Listed.append hb

/-- What has been read since the last restart, the members that have raised an error since, and whether the last read
gave nothing. -/
structure Log where
  given : Bytes
  raised : Nat → Prop
  ended : Prop

def Log.start : Log := ⟨[], fun _ => False, False⟩

def Log.read (l : Log) (raise : Nat → Option Raise) (r : Bytes) : Log :=
  ⟨l.given ++ r, fun i => l.raised i ∨ raise i ≠ none, r = []⟩

/-- A call, and what it is for the reader: a `kseek` that succeeds and a `Tread` at offset 0 start again. -/
def step (mount : List (Option (Directory σ))) (s : Union σ × Log) : Call → Option (Union σ × Log)
  | .kread raise va =>
    let (r, c) := unionread mount raise s.1.chan va
    some (⟨c, s.1.foffset⟩, s.2.read raise r)
  | .kseek off whence =>
    match kseek s.1 off whence with
    | (.ok _, u) => some (u, .start)
    | (.error _, u) => some (u, s.2)
  | .tread raise offset va =>
    match Exread mount raise s.1 offset va with
    | (.ok r, u) => some (u, (if offset = 0 then .start else s.2).read raise r)
    | (.error _, u) => some (u, s.2)

/-- All of the listings have been read when a read gives nothing, and the first of them before. -/
structure Log.Good (mount : List (Option (Directory σ))) (l : Log) : Prop where
  part : ∃ b, Listed l.raised 0 (mount.map listing) (l.given ++ b)
  all : l.ended → Listed l.raised 0 (mount.map listing) l.given

/-- A `Tread` that starts again finds no member open, and if it does not go back, none that it would have to go back
to. -/
def Restarts (mount : List (Option (Directory σ))) (s : Union σ × Log) : Call → Prop
  | .tread _ offset _ => offset = 0 →
    s.1.chan.umc = none ∧ (s.1.foffset = 0 → ∀ m ∈ mount.take s.1.chan.uri, listing m = [])
  | _ => True

def Call.Enough (mount : List (Option (Directory σ))) : Call → Prop
  | .kread _ va => Sysfile.Enough mount va
  | .kseek _ _ => True
  | .tread _ _ va => Sysfile.Enough mount va

structure Inv (mount : List (Option (Directory σ))) (s : Union σ × Log) : Prop where
  uri_le : s.1.chan.uri ≤ mount.length
  umc : ∀ u, s.1.chan.umc = some u → u.Good mount ∧ s.1.chan.uri < mount.length
  /-- what lists the rest lists all, after what has been read -/
  listed : ∀ (raised : Nat → Prop), (∀ i, s.2.raised i → raised i) → ∀ b,
    Listed raised s.1.chan.uri (pending (mount.drop s.1.chan.uri) s.1.chan.umc) b →
      Listed raised 0 (mount.map listing) (s.2.given ++ b)
  ended : s.2.ended → s.1.chan.uri = mount.length

variable {s s' : Union σ × Log} {f : Nat} {l : Log} {call : Call}

theorem Inv.good (hs : Inv mount s) : s.2.Good mount := by
  refine ⟨⟨_, hs.listed _ (fun _ h => h) _ (listed_all _ _ _)⟩, fun hend => ?_⟩
  have hnil : mount.drop s.1.chan.uri = [] := by rw [hs.ended hend, drop_length]
  have hall := hs.listed s.2.raised (fun _ h => h) [] (by rw [hnil]; exact .nil _)
  rwa [append_nil] at hall

theorem inv_start (mount : List (Option (Directory σ))) (f : Nat) : Inv mount (⟨⟨0, none⟩, f⟩, .start) :=
  ⟨zero_le, (fun u hu => by cases hu), (fun raised _ b hb => by rwa [drop_zero, pending_none] at hb), False.elim⟩

theorem Inv.read (hs : Inv mount (⟨c, f⟩, l)) (hva : Enough mount va) (raise : Nat → Option Raise) (f' : Nat) :
    Inv mount (⟨(unionread mount raise c va).2, f'⟩, l.read raise (unionread mount raise c va).1) := by
  obtain ⟨huri, humc, hlisted, -⟩ := hs
  dsimp only at huri humc hlisted
  have hrest : mount.drop c.uri = [] → c.umc = none := fun hnil => by
    by_contra hne
    obtain ⟨u, hu⟩ := ne_none_iff_exists'.1 hne
    have hlt := (humc u hu).2
    have hle := drop_eq_nil_iff.1 hnil
    omega
  obtain ⟨hle, hlen, humc', hlisted', hended⟩ := @unionreadLoop_spec _ _ raise _ _ _ (drop_subset c.uri mount)
    (fun u hu => (humc u hu).1) hrest hva
  have hlength : c.uri + (mount.drop c.uri).length = mount.length := by
    rw [length_drop]
    omega
  rw [hlength] at hlen humc' hended
  refine ⟨hlen, humc', fun raised hraised b hb => ?_, fun hend => (hended hend).2.symm⟩
  dsimp only [Log.read] at hraised hb ⊢
  rw [append_assoc]
  refine hlisted raised (fun i hi => hraised i (.inl hi)) _ (hlisted' raised (fun i hi => hraised i (.inr hi)) b ?_)
  have hdrop : (mount.drop c.uri).drop ((unionreadLoop raise va (mount.drop c.uri) c).2.uri - c.uri) =
      mount.drop (unionreadLoop raise va (mount.drop c.uri) c).2.uri := by
    rw [drop_drop, Nat.add_sub_cancel' hle]
  rw [hdrop]
  exact hb

theorem Listed.skips {l : List (List Bytes)} (h : Listed raised (k + l.length) ps b) (hl : ∀ es ∈ l, es = []) :
    Listed raised k (l ++ ps) b := by
  induction l generalizing k with
  | nil => exact h
  | cons es l ih =>
    obtain ⟨hes, hl⟩ := forall_mem_cons.1 hl
    rw [length_cons, ← add_assoc, Nat.add_right_comm] at h
    exact (ih h hl).skip (.inl hes)

theorem Inv.restart (hs : Inv mount s) (humc : s.1.chan.umc = none)
    (hempty : s.1.foffset = 0 → ∀ m ∈ mount.take s.1.chan.uri, listing m = []) :
    Inv mount (⟨if 0 ≠ s.1.foffset then { s.1.chan with uri := 0 } else s.1.chan, f⟩, .start) := by
  by_cases h0 : s.1.foffset = 0
  · rw [if_neg (not_not.2 h0.symm)]
    refine ⟨hs.uri_le, hs.umc, fun raised _ b hb => ?_, False.elim⟩
    have hlen : (mount.take s.1.chan.uri).length = s.1.chan.uri := length_take_of_le hs.uri_le
    rw [humc, pending_none] at hb
    rw [← take_append_drop s.1.chan.uri mount, map_append]
    refine Listed.skips ?_ fun es hes => ?_
    · rw [length_map, hlen, zero_add]
      exact hb
    obtain ⟨m, hm, rfl⟩ := mem_map.1 hes
    exact hempty h0 m hm
  · rw [if_pos (Ne.symm h0)]
    dsimp only
    rw [humc]
    exact inv_start mount f

theorem kseek_cases (u : Union σ) (off whence : Int) :
    kseek u off whence = (.ok off, { u with chan := ⟨0, none⟩ }) ∨ ∃ err, kseek u off whence = (.error err, u) := by
  unfold kseek
  split_ifs
  · exact .inr ⟨_, rfl⟩
  · exact .inl rfl
  · exact .inr ⟨_, rfl⟩
  · exact .inr ⟨_, rfl⟩

theorem Exread_cases (raise : Nat → Option Raise) (u : Union σ) (offset : Nat) (va : Bytes) :
    (∃ err, Exread mount raise u offset va = (.error err, u) ∧ offset ≠ 0) ∨
      (∃ c, Exread mount raise u offset va =
          (.ok (unionread mount raise c va).1,
          ⟨(unionread mount raise c va).2, offset + (unionread mount raise c va).1.length⟩) ∧
        (offset ≠ 0 → c = u.chan) ∧ (offset = 0 → c = if 0 ≠ u.foffset then { u.chan with uri := 0 } else u.chan)) := by
  unfold Exread
  by_cases hbad : offset ≠ u.foffset ∧ offset ≠ 0
  · rw [if_pos hbad]
    exact .inl ⟨_, rfl, hbad.2⟩
  · rw [if_neg hbad]
    refine .inr ⟨_, rfl, fun h0 => if_neg fun h => hbad ⟨h, h0⟩, fun h0 => ?_⟩
    rw [h0]

theorem Inv.step (hs : Inv mount s) (hva : call.Enough mount) (hG : Restarts mount s call)
    (h : step mount s call = some s') : Inv mount s' := by
  obtain ⟨⟨c, f⟩, l⟩ := s
  unfold Sysfile.step at h
  cases call with
  | kread raise va =>
    cases h
    exact hs.read hva raise f
  | kseek off whence =>
    dsimp only at h
    rcases kseek_cases ⟨c, f⟩ off whence with hseek | ⟨err, hseek⟩ <;> rw [hseek] at h <;> cases h
    · exact inv_start mount f
    · exact hs
  | tread raise offset va =>
    dsimp only at h
    rcases @Exread_cases _ mount raise ⟨c, f⟩ offset va with ⟨err, hread, -⟩ | ⟨c', hread, hgo, hstart⟩ <;>
      rw [hread] at h <;> cases h
    · exact hs
    by_cases h0 : offset = 0
    · obtain ⟨humc, hempty⟩ := hG h0
      rw [if_pos h0, hstart h0]
      exact (hs.restart (f := f) humc hempty).read hva raise _
    · rw [if_neg h0, hgo h0]
      exact hs.read hva raise _

/-- If each `Tread` that starts again finds the union read to its end or not read, a read that gives nothing comes after
the listings of all members, one after the other, and never anything else is given. -/
theorem union_listing (mount : List (Option (Directory σ))) (calls : List Call) (hva : ∀ call ∈ calls,
    call.Enough mount)
    (h : Along (step mount) (Restarts mount) (opened, .start) calls) :
    Always (step mount) (fun s => s.2.Good mount) (opened, .start) calls :=
  ((h.and_mem hva).always (fun _ _ _ hs hG => hs.step hG.1 hG.2) (inv_start mount 0)).mono fun _ => Inv.good

def twoEntries (i : Nat) : Dev.Gen := if i < 2 then Dev.oneEntry 1 else .stop

theorem twoEntries_stops : Dev.Stops twoEntries 2 := by
  refine ⟨rfl, fun i hi => ?_⟩
  obtain rfl | rfl : i = 0 ∨ i = 1 := by omega
  · exact Dev.Gen.noConfusion
  · exact Dev.Gen.noConfusion

theorem empty_stops : Dev.Stops (fun _ => .stop) 0 := ⟨rfl, fun _ hi => absurd hi (Nat.not_lt_zero _)⟩

/-- A directory with two entries, and behind it one that is empty. -/
def twoMembers : List (Option (Directory DirSt)) :=
  [some (.dev twoEntries 2 twoEntries_stops), some (.dev (fun _ => .stop) 0 empty_stops)]

def sixty : Bytes := List.replicate 60 0

theorem twoMembers_enough : Enough twoMembers sixty := by
  refine ⟨by decide, by decide, ?_⟩
  simp only [twoMembers, forall_mem_cons]
  exact ⟨by decide, by decide, nofun⟩

theorem unionread_first {d d' : Directory σ} (hempty : d'.left d'.opened = []) (hu : u.Good [some d, some d'])
    (hva : Enough [some d, some d'] va) :
    (u.left = [] → unionread [some d, some d'] (fun _ => none) ⟨0, some u⟩ va = ([], ⟨2, none⟩)) ∧
    (u.left ≠ [] → ∃ u', unionread [some d, some d'] (fun _ => none) ⟨0, some u⟩ va =
      ((fill va.length u.left).1.flatten, ⟨0, some u'⟩) ∧ u'.Good [some d, some d'] ∧
        u'.left = (fill va.length u.left).2) := by
  obtain ⟨st, hread, hleft, hgood⟩ := Umc.read hu hva
  have hone : readMember (some d) none (some u) va = ((fill va.length u.left).1.flatten,
      some ⟨u.dir, st, u.offset + (fill va.length u.left).1.flatten.length⟩) := by
    simp [readMember, readUmc, hread]
  have hempty' : Umc.left ⟨d', d'.opened, 0⟩ = [] := hempty
  obtain ⟨st', hread', -, -⟩ := Umc.read (u := ⟨d', d'.opened, 0⟩)
    ⟨d'.opened_at, some d', mem_cons_of_mem _ mem_cons_self, List.Subset.refl _⟩ hva
  rw [hempty'] at hread'
  have hread' : d'.read d'.opened va 0 = (.ok [], st') := hread'
  have htwo : (readMember (some d') none none va).1 = [] := by simp [readMember, readUmc, hread']
  refine ⟨fun hnil => ?_, fun hne => ⟨_, ?_, hgood, hleft⟩⟩
  · have hfill : (fill va.length u.left).1.flatten = [] := by rw [hnil]; rfl
    simp [unionread, unionreadLoop, hone, hfill, htwo]
  · obtain ⟨m, hm, hsub⟩ := hu.left
    have hfill := fill_ne_nil hne (u.dir.ne_nil u.st) fun e he => hva.2.2 m hm e (hsub he)
    simp [unionread, unionreadLoop, hone, hfill]

def goesBack : List Call := [0, 0, 49].map fun off => .tread (fun _ => none) off sixty

/-- A `Tread` at offset 0 in the middle of the first member: its second entry is read, and the first is not read
again. -/
theorem not_union_listing : ¬ ∀ (mount : List (Option (Directory DirSt))) (calls : List Call),
    (∀ call ∈ calls, call.Enough mount) → Always (step mount) (fun s => s.2.Good mount) (opened, .start) calls := by
  intro hall
  have hva := twoMembers_enough
  have he : (emptyDir 7).bytes.length = 49 := by decide
  have hlen : sixty.length = 60 := List.length_replicate
  generalize hb : sixty = va at hva hlen
  have hcalls : goesBack = [.tread (fun _ => none) 0 va, .tread (fun _ => none) 0 va,
    .tread (fun _ => none) 49 va] := by
    rw [← hb]
    rfl
  generalize he' : (emptyDir 7).bytes = e at he
  have hne : e ≠ [] := fun h => by rw [h] at he; cases he
  have hfill₂ : fill va.length [e, e] = ([e], [e]) := by simp [fill, hlen, he]
  have hfill₁ : fill va.length [e] = ([e], []) := by simp [fill, hlen, he]
  -- the first read opens the member
  have hgood₀ : Umc.Good twoMembers ⟨.dev twoEntries 2 twoEntries_stops, DirSt.mk 0 ⟨[], none, 0, false⟩, 0⟩ :=
    ⟨Nat.zero_le 2, _, mem_cons_self, List.Subset.refl _⟩
  have hleft₀ : Umc.left ⟨.dev twoEntries 2 twoEntries_stops, DirSt.mk 0 ⟨[], none, 0, false⟩, 0⟩ = [e, e] := by
    rw [← he']
    rfl
  obtain ⟨u₁, hr₁, hgood₁, hleft₁⟩ := (unionread_first rfl hgood₀ hva).2 (by rw [hleft₀]; exact List.cons_ne_nil _ _)
  rw [hleft₀, hfill₂] at hr₁ hleft₁
  obtain ⟨u₂, hr₂, hgood₂, hleft₂⟩ := (unionread_first rfl hgood₁ hva).2 (by rw [hleft₁]; exact List.cons_ne_nil _ _)
  rw [hleft₁, hfill₁] at hr₂ hleft₂
  have hr₃ := (unionread_first rfl hgood₂ hva).1 hleft₂
  have hflat : [e].flatten = e := List.append_nil e
  rw [hflat] at hr₁ hr₂
  have hs₁ : step twoMembers (opened, .start) (.tread (fun _ => none) 0 va) =
      some (⟨⟨0, some u₁⟩, 49⟩, Log.start.read (fun _ => none) e) := by
    have hread : unionread twoMembers (fun _ => none) (opened : Union DirSt).chan va = (e, ⟨0, some u₁⟩) := hr₁
    have hoff : (opened : Union DirSt).foffset = 0 := rfl
    simp [step, Exread, hoff, hread, he]
  have hs₂ : step twoMembers (⟨⟨0, some u₁⟩, 49⟩, Log.start.read (fun _ => none) e) (.tread (fun _ => none) 0 va) =
      some (⟨⟨0, some u₂⟩, 49⟩, Log.start.read (fun _ => none) e) := by
    have hread : unionread twoMembers (fun _ => none) ⟨0, some u₁⟩ va = (e, ⟨0, some u₂⟩) := hr₂
    simp [step, Exread, hread, he]
  have hs₃ : step twoMembers (⟨⟨0, some u₂⟩, 49⟩, Log.start.read (fun _ => none) e) (.tread (fun _ => none) 49 va) =
      some (⟨⟨2, none⟩, 49⟩, (Log.start.read (fun _ => none) e).read (fun _ => none) []) := by
    have hread : unionread twoMembers (fun _ => none) ⟨0, some u₂⟩ va = ([], ⟨2, none⟩) := hr₃
    simp [step, Exread, hread]
  have henough : ∀ call ∈ goesBack, call.Enough twoMembers := by
    rw [hcalls]
    simp [Call.Enough, hva]
  have hgood := (hall twoMembers goesBack henough).last
    (hcalls ▸ run_cons.2 ⟨_, hs₁, run_cons.2 ⟨_, hs₂, run_cons.2 ⟨_, hs₃, rfl⟩⟩⟩)
  -- the listing has two entries
  have hall := (hgood.all rfl).all (by simp [Log.read, Log.start])
  have hlisting : twoMembers.map listing = [[e, e], []] := by
    rw [← he']
    rfl
  rw [hlisting] at hall
  have hlen := congrArg List.length hall
  simp [Log.read, Log.start, he] at hlen

theorem union_listing_twoMembers : Always (step twoMembers) (fun s => s.2.Good twoMembers) (opened, .start)
    [.kread (fun _ => none) sixty, .kseek 0 0, .kread (fun _ => some .reading) sixty] := by
  refine union_listing twoMembers _ ?_ fun _ _ => ⟨trivial, fun _ _ => ⟨trivial, fun _ _ => ⟨trivial, trivial⟩⟩⟩
  simp [Call.Enough, twoMembers_enough]

end Node9.Sysfile
