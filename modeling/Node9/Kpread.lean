import Node9.FsSeek
import Node9.Union

/-!
# Reading at an offset (`kread`, `kpread` and `kseek` in `sysfile.c`)

A channel is to a file, which is read at the offset it is asked for, to a directory of a device or of the host, or to a
union. The calls that do not say where they read go on from where the last has ended. `kpread` says where, and should
leave that place alone; but a directory of a device is read from `c->dri` on, whoever reads, and a union from `uri` and
`umc`.
-/

namespace Node9.Rread
open Buf Listing Steps Sysfile Option

/-- What the channel is to, and if `dc` of its device is `|`. A file can have no length that can be asked for. A
directory of the host has a name that is not too long for `fspath`. -/
inductive Kind (σ : Type)
  | file (stream : Bool) (read : Nat → Nat → Except String Bytes) (length : Option Int)
  | dev (stream : Bool) (gen : Nat → Dev.Gen) (stop : Nat) (hs : Dev.Stops gen stop)
  | host (d : Devfs.OpenDir) (h : Devfs.Files) (hname : (Devfs.slashed d.name).length < Devfs.MAXPATH)
  | union (stream : Bool) (mount : List (Option (Directory σ)))

structure Chan (σ : Type) where
  offset : Int
  /-- `c->dri` and `FS(c)` -/
  st : DirSt
  /-- `uri` and `umc` -/
  u : Sysfile.Chan σ

def Enegoff : String := "negative i/o offset"
def Eisstream : String := "seek on a stream"

variable {σ : Type}

def Kind.isDir : Kind σ → Bool
  | .file _ _ _ => false
  | _ => true

/-- `read` of the device. The count of `fsdirread` is an `int`. -/
def Kind.read (k : Kind σ) (st : DirSt) (va : Bytes) (off : Nat) : Except String Bytes × DirSt :=
  match k with
  | .file _ read _ => (read va.length off, st)
  | .dev _ gen stop hs => (Directory.dev gen stop hs).read st va off
  | .host d h hname => (Directory.host d h hname).read st (va.take (Int32.ofNat va.length).toInt.toNat) off
  | .union _ _ => (.error "", st)

/-- The channel after `if(off == 0)`. -/
def rewound (c : Chan σ) (offp : Option Int) : Chan σ :=
  match offp with
  | none => { c with offset := 0, st := { c.st with dri := 0 }, u := unionrewind c.u }
  | some _ => { c with u := unionrewind c.u }

/-- `raise` says which members of a union raise an error, and where. There is no buffer of a negative size, for which
the source raises `Etoosmall`. -/
def rread (k : Kind σ) (c : Chan σ) (raise : Nat → Option Raise) (va : Bytes) (offp : Option Int) :
    Except String Bytes × Chan σ :=
  match k with
  | .union _ mount =>
    let (r, u) := unionread mount raise c.u va
    (.ok r, { c with u := u })
  | k =>
    let off := offp.getD c.offset
    if off < 0 then (.error Enegoff, c)
    else
      let c := if off = 0 then rewound c offp else c
      match k.read c.st va off.toNat with
      | (.error err, st) => (.error err, { c with st := st })
      | (.ok r, st) => (.ok r, { c with st := st, offset := if offp.isNone then c.offset + r.length else c.offset })

def kread (k : Kind σ) (c : Chan σ) (raise : Nat → Option Raise) (va : Bytes) : Except String Bytes × Chan σ :=
  rread k c raise va none

def kpread (k : Kind σ) (c : Chan σ) (raise : Nat → Option Raise) (va : Bytes) (off : Int) :
    Except String Bytes × Chan σ :=
  rread k c raise va (some off)

def Kind.stream : Kind σ → Bool
  | .file stream _ _ => stream
  | .dev stream _ _ _ => stream
  | .host _ _ _ => false
  | .union stream _ => stream

/-- What `chandirstat` says of the length. -/
def Kind.length : Kind σ → Option Int
  | .file _ _ length => length
  | _ => none

/-- `if(off < 0) error(Enegoff)` -/
def notNeg (off : Int) : Except String Int := if off < 0 then .error Enegoff else .ok off

/-- Where `kseek` goes, from the offset where it is, with sums below 2^63. -/
def target (k : Kind σ) (offset off whence : Int) : Except String Int :=
  if k.stream then .error Eisstream
  else if whence = 0 then
    if k.isDir then if off ≠ 0 then .error Eisdir else .ok off
    else notNeg off
  else if whence = 1 then if k.isDir then .error Eisdir else notNeg (off + offset)
  else if whence = 2 then
    if k.isDir then .error Eisdir
    else
      match k.length with
      | none => .error "internal error: stat error in seek"
      | some n => notNeg (off + n)
  else .error Ebadarg

def kseek (k : Kind σ) (c : Chan σ) (off whence : Int) : Except String Int × Chan σ :=
  match target k c.offset off whence with
  | .error err => (.error err, c)
  | .ok off =>
    let u := if k.isDir then unionrewind c.u else c.u
    (.ok off, { c with offset := off, st := { c.st with dri := 0 }, u := u })

inductive Call
  | kread (raise : Nat → Option Raise) (va : Bytes)
  | kpread (raise : Nat → Option Raise) (va : Bytes) (off : Int)
  | kseek (off whence : Int)

def call (k : Kind σ) (c : Chan σ) : Call → Except String (Bytes ⊕ Int) × Chan σ
  | .kread raise va => ((kread k c raise va).1.map .inl, (kread k c raise va).2)
  | .kpread raise va off => ((kpread k c raise va off).1.map .inl, (kpread k c raise va off).2)
  | .kseek off whence => ((kseek k c off whence).1.map .inr, (kseek k c off whence).2)

/-- The channel when it has been opened. -/
def opened : Kind σ → Chan σ
  | .file _ _ _ | .union _ _ => ⟨0, ⟨0, ⟨[], none, 0, false⟩⟩, ⟨0, none⟩⟩
  | .dev _ gen stop hs => ⟨0, (Directory.dev gen stop hs).opened, ⟨0, none⟩⟩
  | .host d h hname => ⟨0, (Directory.host d h hname).opened, ⟨0, none⟩⟩

/-! ### What `kpread` should leave alone -/

def Call.original : Call → Bool
  | .kpread _ _ _ => false
  | _ => true

/-- What the calls other than `kpread` return. -/
def results (k : Kind σ) : Chan σ → List Call → List (Except String (Bytes ⊕ Int))
  | _, [] => []
  | c, a :: as => (if a.original then [(call k c a).1] else []) ++ results k (call k c a).2 as

/-- The position that a `kpread` of a directory moves: the next slot of a device is not the end, nor an entry that does
not go into the buffer, and the union has not been read to its end. -/
def Moves (k : Kind σ) (c : Chan σ) (va : Bytes) (off : Int) : Prop :=
  match k with
  | .dev _ gen _ _ =>
    0 ≤ off ∧ 0 < va.length ∧ gen c.st.dri ≠ .stop ∧ ∀ d, gen c.st.dri = .entry d → d.dir.size ≤ va.length
  | .union _ mount => c.u.uri < mount.length
  | _ => False

/-- Whether a `kpread` has moved the position since it was last put back to the start: by a `kseek`, or in a directory
of a device by a `kread` at offset 0. -/
def moved (k : Kind σ) (c : Chan σ) (m : Prop) : Call → Prop
  | .kread _ _ => m ∧ ¬ ((∃ stream gen stop hs, k = .dev stream gen stop hs) ∧ c.offset = 0)
  | .kpread _ va off => m ∨ Moves k c va off
  | .kseek off whence => m ∧ ∃ err, target k c.offset off whence = .error err

def step (k : Kind σ) (s : Chan σ × Prop) (a : Call) : Option (Chan σ × Prop) :=
  some ((call k s.1 a).2, moved k s.1 s.2 a)

/-- A `kpread` at offset 0 finds the position at the start. -/
def AtStart (k : Kind σ) (c : Chan σ) : Prop :=
  match k with
  | .dev _ gen _ _ => ∀ i < c.st.dri, gen i = .skip
  | .union _ _ => c.u.uri = 0 ∧ c.u.umc = none
  | _ => True

/-- A `kread` finds the position where the last has left it. A `kpread` at offset 0 finds it at the start; of a
directory of the host it is at an offset where an entry begins, or not before the end. -/
def Kept (k : Kind σ) (s : Chan σ × Prop) : Call → Prop
  | .kread raise va => ¬ moved k s.1 s.2 (.kread raise va)
  | .kpread _ _ off => (off = 0 → AtStart k s.1) ∧
    ∀ d h hname, k = .host d h hname → 0 ≤ off → Devfs.AtEntry (d.encs h d.listing) off.toNat
  | .kseek _ _ => True

/-- What a `kpread` at offset 0 of a directory should return: what a `kread` does when it has just been opened. -/
def First (k : Kind σ) (c : Chan σ) : Call → Prop
  | .kpread raise va off => k.isDir = true → off = 0 → (kpread k c raise va 0).1 = (kread k (opened k) raise va).1
  | _ => True

/-- The entries of a directory of the host go into the buffer for those that are passed over. -/
def Kind.Fits : Kind σ → Prop
  | .host d h _ => ∀ e ∈ d.encs h d.listing, e.length ≤ Devfs.slopSize
  | _ => True

/-! ### A directory of a device -/

variable {k : Kind σ} {c c' : Chan σ} {raise : Nat → Option Raise} {va : Bytes} {offp : Option Int} {off : Int}
    {m : Prop}
  {gen : Nat → Dev.Gen} {stop dri n : Nat} {buf : Bytes} {r : Dev.DirRead}

theorem devdirreadLoop_le (hs : Dev.Stops gen stop) (hdri : dri ≤ stop) {f : Nat}
    (h : Dev.devdirreadLoop gen f buf n dri = some r) : r.dri ≤ stop := by
  induction f generalizing buf n dri with
  | zero => cases h
  | succ f ih =>
    rw [Dev.devdirreadLoop] at h
    by_cases hroom : n < buf.length
    · rw [if_pos hroom] at h
      cases hg : gen dri with
      | stop =>
        rw [hg] at h
        cases h
        exact hdri
      | skip =>
        rw [hg] at h
        exact ih (hs.lt hdri (by rw [hg]; exact Dev.Gen.noConfusion)) h
      | entry d =>
        rw [hg] at h
        obtain ⟨x, -, h⟩ := bind_eq_some_iff.1 h
        dsimp only at h
        by_cases hshort : x.1.toNat ≤ BIT16SZ
        · rw [if_pos hshort] at h
          cases h
          exact hdri
        · rw [if_neg hshort] at h
          exact ih (hs.lt hdri (by rw [hg]; exact Dev.Gen.noConfusion)) h
    · rw [if_neg hroom] at h
      cases h
      exact hdri

theorem devdirreadLoop_rounds (hs : Dev.Stops gen stop) (hdri : dri ≤ stop) {f f' : Nat} (hf : stop - dri < f)
    (hf' : stop - dri < f') : Dev.devdirreadLoop gen f buf n dri = Dev.devdirreadLoop gen f' buf n dri := by
  induction f generalizing f' buf n dri with
  | zero => omega
  | succ f ih =>
    obtain ⟨f', rfl⟩ : ∃ i, f' = i + 1 := ⟨f' - 1, by omega⟩
    rw [Dev.devdirreadLoop, Dev.devdirreadLoop]
    cases hg : gen dri with
    | stop => rfl
    | skip =>
      have hlt := hs.lt hdri (by rw [hg]; exact Dev.Gen.noConfusion)
      dsimp only
      rw [@ih _ _ _ hlt f' (by omega) (by omega)]
    | entry d =>
      have hlt := hs.lt hdri (by rw [hg]; exact Dev.Gen.noConfusion)
      have hnext : ∀ buf n, Dev.devdirreadLoop gen f buf n (dri + 1) = Dev.devdirreadLoop gen f' buf n (dri + 1) :=
        fun buf n => @ih _ _ _ hlt f' (by omega) (by omega)
      simp only [hnext]

theorem devdirread_skips (hs : Dev.Stops gen stop) (hdri : dri ≤ stop) (hskip : ∀ i < dri, gen i = .skip)
    (hbuf : 0 < buf.length) : Dev.devdirread gen (stop + 1) buf 0 = Dev.devdirread gen (stop + 1) buf dri := by
  induction dri with
  | zero => rfl
  | succ dri ih =>
    rw [ih (by omega) fun i hi => hskip i (by omega)]
    unfold Dev.devdirread
    conv_lhs => rw [Dev.devdirreadLoop, if_pos hbuf, hskip dri (Nat.lt_succ_self dri)]
    exact devdirreadLoop_rounds hs hdri (by omega) (by omega)

theorem devdirread_stays (h : ¬ (0 < buf.length ∧ gen dri ≠ .stop ∧ ∀ d, gen dri = .entry d → d.dir.size ≤ buf.length))
    {f : Nat} (hr : Dev.devdirread gen (f + 1) buf dri = some r) : r.dri = dri := by
  unfold Dev.devdirread at hr
  rw [Dev.devdirreadLoop] at hr
  by_cases hbuf : 0 < buf.length
  · rw [if_pos hbuf] at hr
    cases hg : gen dri with
    | stop =>
      rw [hg] at hr
      cases hr
      rfl
    | skip => exact absurd ⟨hbuf, by simp [hg], by simp [hg]⟩ h
    | entry d =>
      have hshort : buf.length < d.dir.size := by
        by_contra hle
        refine h ⟨hbuf, by simp [hg], fun d' hd' => ?_⟩
        rw [hg] at hd'
        cases hd'
        omega
      have hsize := d.size_lt
      obtain ⟨-, hends⟩ := Dev.devdirreadLoop_entry (k := f) (m := 0) hbuf (by omega) hg
      obtain ⟨buf', hloop, -⟩ := hends (by omega)
      rw [Dev.devdirreadLoop, if_pos hbuf] at hloop
      cases hr.symm.trans hloop
      rfl
  · rw [if_neg hbuf] at hr
    cases hr
    rfl

/-- The channel that the device reads. -/
def start (c : Chan σ) (offp : Option Int) : Chan σ := if offp.getD c.offset = 0 then rewound c offp else c

/-- What a read adds to the offset. -/
def gain : Except String Bytes → Int
  | .ok r => r.length
  | .error _ => 0

theorem rread_spec (hk : ∀ stream mount, k ≠ .union stream mount) (hoff : 0 ≤ offp.getD c.offset) :
    (rread k c raise va offp).1 = (k.read (start c offp).st va (offp.getD c.offset).toNat).1 ∧
    (rread k c raise va offp).2.st = (k.read (start c offp).st va (offp.getD c.offset).toNat).2 ∧
    (rread k c raise va offp).2.offset = (start c offp).offset +
      if offp.isNone then gain (k.read (start c offp).st va (offp.getD c.offset).toNat).1 else 0 := by
  have hrread : rread k c raise va offp = match k.read (start c offp).st va (offp.getD c.offset).toNat with
      | (.error err, st) => (.error err, { start c offp with st := st })
      | (.ok r, st) => (.ok r, { start c offp with st := st, offset :=
          if offp.isNone then (start c offp).offset + r.length else (start c offp).offset }) := by
    cases k with
    | union stream mount => exact absurd rfl (hk stream mount)
    | _ =>
      unfold rread
      dsimp only
      rw [if_neg (not_lt.2 hoff)]
      rfl
  rw [hrread]
  rcases k.read (start c offp).st va (offp.getD c.offset).toNat with ⟨err | r, st⟩
  · exact ⟨rfl, rfl, by simp [gain]⟩
  · refine ⟨rfl, rfl, ?_⟩
    cases offp <;> simp [gain]

theorem rread_neg (hk : ∀ stream mount, k ≠ .union stream mount) (hoff : offp.getD c.offset < 0) :
    rread k c raise va offp = (.error Enegoff, c) := by
  cases k with
  | union stream mount => exact absurd rfl (hk stream mount)
  | _ =>
    unfold rread
    dsimp only
    rw [if_pos hoff]

theorem start_offset : (start c offp).offset = c.offset := by
  unfold start
  split_ifs with h
  · cases offp with
    | none => exact h.symm
    | some off => rfl
  · rfl

theorem start_fs : (start c offp).st.fs = c.st.fs := by
  unfold start
  split_ifs
  · cases offp <;> rfl
  · rfl

theorem start_some : (start c (some off)).st = c.st := by
  unfold start
  split_ifs <;> rfl

/-- Two channels go on alike: nothing has moved in the one what has not in the other, or nothing that matters. -/
def Same (k : Kind σ) (m : Prop) (c c' : Chan σ) : Prop :=
  c.offset = c'.offset ∧ 0 ≤ c.offset ∧ match k with
    | .file _ _ _ => True
    | .dev _ _ stop _ => c.st.dri ≤ stop ∧ (¬ m → c.st.dri = c'.st.dri)
    | .host d h _ => Devfs.Placed d h c.st.fs ∧ Devfs.Placed d h c'.st.fs ∧
      Devfs.AtEntry (d.encs h d.listing) c.offset.toNat
    | .union _ _ => ¬ m → c.u = c'.u

/-- What a read of a directory of a device does to `c->dri`. -/
theorem devRead_dri (hs : Dev.Stops gen stop) (st : DirSt) (hdri : st.dri ≤ stop) (va : Bytes) (n : Nat) :
    ((Directory.dev gen stop hs).read st va n).2.dri ≤ stop ∧
      (¬ (0 < va.length ∧ gen st.dri ≠ .stop ∧ ∀ d, gen st.dri = .entry d → d.dir.size ≤ va.length) →
        ((Directory.dev gen stop hs).read st va n).2.dri = st.dri) := by
  cases hr : Dev.devdirread gen (stop + 1) va st.dri with
  | none =>
    rw [dev_read_none n hr]
    exact ⟨hdri, fun _ => rfl⟩
  | some r =>
    rw [dev_read_some n hr]
    exact ⟨devdirreadLoop_le hs hdri hr, fun h => devdirread_stays h hr⟩

theorem devRead_congr (hs : Dev.Stops gen stop) {st st' : DirSt} (hdri : st.dri = st'.dri) (va : Bytes) (n n' : Nat) :
    ((Directory.dev gen stop hs).read st va n).1 = ((Directory.dev gen stop hs).read st' va n').1 ∧
      ((Directory.dev gen stop hs).read st va n).2.dri = ((Directory.dev gen stop hs).read st' va n').2.dri := by
  cases hr : Dev.devdirread gen (stop + 1) va st'.dri with
  | none =>
    rw [dev_read_none n (hdri ▸ hr), dev_read_none n' hr]
    exact ⟨rfl, hdri⟩
  | some r =>
    rw [dev_read_some n (hdri ▸ hr), dev_read_some n' hr]
    exact ⟨rfl, rfl⟩

theorem atEntry_add {es : List Bytes} (hne : ∀ e ∈ es, e ≠ []) {off : Nat} (h : Devfs.AtEntry es off) (n : Nat) :
    Devfs.AtEntry es (off + (fill n (Devfs.after es off)).1.flatten.length) := by
  rcases h with hle | ⟨us, ⟨vs, rfl⟩, rfl⟩
  · exact .inl (by omega)
  · rw [Devfs.after_append hne]
    refine .inr ⟨us ++ (fill n vs).1, ?_, by rw [List.flatten_append, List.length_append]⟩
    refine (List.prefix_append_right_inj us).2 ⟨(fill n vs).2, fill_append n vs⟩

theorem hostRead {d : Devfs.OpenDir} {h : Devfs.Files} {hname : (Devfs.slashed d.name).length < Devfs.MAXPATH}
    (hbig : (Kind.host d h hname : Kind σ).Fits) {n : Nat} (hat : Devfs.AtEntry (d.encs h d.listing) n) (va : Bytes) :
    ∃ r, Devfs.AtEntry (d.encs h d.listing) (n + r.length) ∧ ∀ st : DirSt, Devfs.Placed d h st.fs →
      ∃ fs', (Kind.host d h hname : Kind σ).read st va n = (.ok r, { st with fs := fs' }) ∧ Devfs.Placed d h fs' := by
  refine ⟨(fill (va.take (Int32.ofNat va.length).toInt.toNat).length (Devfs.after (d.encs h d.listing) n)).1.flatten,
    atEntry_add Devfs.encs_ne_nil hat _, fun st hp => ?_⟩
  obtain ⟨fs', hread, hp'⟩ := @Devfs.fsdirread_at _ _ _
    (va.take (Int32.ofNat va.length).toInt.toNat) _ hname hbig hp hat
  refine ⟨fs', ?_, hp'⟩
  simp only [Kind.read, Directory.host, hread]

theorem start_dri : (start c none).st.dri = if c.offset = 0 then 0 else c.st.dri := by
  have hget : (none : Option Int).getD c.offset = c.offset := rfl
  unfold start
  rw [hget]
  split_ifs <;> rfl

theorem gain_nonneg (r : Except String Bytes) : 0 ≤ gain r := by
  cases r with
  | error err => exact le_rfl
  | ok r => exact Int.natCast_nonneg _

theorem Same.kread (hs : Same k m c c') (hfits : k.Fits) (hkept : ¬ moved k c m (.kread raise va)) :
    (kread k c raise va).1 = (kread k c' raise va).1 ∧
      Same k (moved k c m (.kread raise va)) (kread k c raise va).2 (kread k c' raise va).2 := by
  obtain ⟨hoff, hpos, hs⟩ := hs
  have hget : ∀ c : Chan σ, (none : Option Int).getD c.offset = c.offset := fun _ => rfl
  have hread := fun hk => @rread_spec _ k c raise va none hk hpos
  have hread' := fun hk => @rread_spec _ k c' raise va none hk (hoff ▸ hpos)
  simp only [hget, start_offset, isNone_none, if_true, ← hoff] at hread hread'
  unfold Rread.kread
  cases k with
  | file stream read length =>
    obtain ⟨hr, -, ho⟩ := hread fun _ _ h => by cases h
    obtain ⟨hr', -, ho'⟩ := hread' fun _ _ h => by cases h
    refine ⟨hr.trans hr'.symm, ho.trans ho'.symm, ?_, trivial⟩
    rw [ho]
    exact Int.add_nonneg hpos (gain_nonneg _)
  | dev stream gen stop hs' =>
    obtain ⟨hle, hsame⟩ := hs
    obtain ⟨hr, hst, ho⟩ := hread fun _ _ h => by cases h
    obtain ⟨hr', hst', ho'⟩ := hread' fun _ _ h => by cases h
    have hdri : (start c none).st.dri = (start c' none).st.dri := by
      rw [start_dri, start_dri, ← hoff]
      split_ifs with h0
      · rfl
      · exact hsame fun hm => hkept ⟨hm, fun h => h0 h.2⟩
    have hlestart : (start c none).st.dri ≤ stop := by
      rw [start_dri]
      split_ifs
      · exact zero_le
      · exact hle
    obtain ⟨hcongr, hcongr'⟩ := devRead_congr hs' hdri va c.offset.toNat c.offset.toNat
    refine ⟨hr.trans (hcongr.trans hr'.symm), ?_, ?_, ?_, fun _ => ?_⟩
    · rw [ho, ho']
      exact congrArg (fun r => c.offset + gain r) hcongr
    · rw [ho]
      exact Int.add_nonneg hpos (gain_nonneg _)
    · rw [hst]
      exact (devRead_dri hs' _ hlestart va _).1
    · rw [hst, hst']
      exact hcongr'
  | host d h hname =>
    obtain ⟨hp, hp', hat⟩ := hs
    obtain ⟨hr, hst, ho⟩ := hread fun _ _ h => by cases h
    obtain ⟨hr', hst', ho'⟩ := hread' fun _ _ h => by cases h
    obtain ⟨r, hat', hall⟩ := hostRead hfits hat va
    obtain ⟨fs, hk, hpk⟩ := hall (start c none).st (by rwa [start_fs])
    obtain ⟨fs', hk', hpk'⟩ := hall (start c' none).st (by rwa [start_fs])
    rw [hk] at hr hst ho
    rw [hk'] at hr' hst' ho'
    refine ⟨hr.trans hr'.symm, ho.trans ho'.symm, ?_, ?_, ?_, ?_⟩
    · rw [ho]
      exact Int.add_nonneg hpos (gain_nonneg _)
    · rw [hst]
      exact hpk
    · rw [hst']
      exact hpk'
    rw [ho]
    have hsum : (c.offset + gain (.ok r)).toNat = c.offset.toNat + r.length := by
      simp only [gain]
      omega
    rw [hsum]
    exact hat'
  | union stream mount =>
    have hu : c.u = c'.u := hs fun hm => hkept ⟨hm, by simp⟩
    simp only [rread, hu]
    exact ⟨trivial, hoff, hpos, fun _ => rfl⟩

theorem notNeg_nonneg {o : Int} (h : notNeg off = .ok o) : 0 ≤ o := by
  unfold notNeg at h
  split_ifs at h with hneg
  cases h
  exact not_lt.1 hneg

theorem target_nonneg {offset whence o : Int} (h : target k offset off whence = .ok o) : 0 ≤ o := by
  unfold target at h
  split_ifs at h with _ _ _ hzero
  · cases h
    exact (not_not.1 hzero).ge
  · exact notNeg_nonneg h
  · exact notNeg_nonneg h
  · cases hl : k.length with
    | none => rw [hl] at h; cases h
    | some n =>
      rw [hl] at h
      exact notNeg_nonneg h

theorem target_dir {offset whence o : Int} (hk : k.isDir = true) (h : target k offset off whence = .ok o) : o = 0 := by
  simp only [target, hk, if_true] at h
  split_ifs at h with _ _ hzero
  cases h
  exact not_not.1 hzero

theorem Same.mono {m' : Prop} (hs : Same k m c c') (hm : m → m') : Same k m' c c' := by
  refine ⟨hs.1, hs.2.1, ?_⟩
  have hs := hs.2.2
  cases k with
  | file stream read length => trivial
  | dev stream gen stop hs' => exact ⟨hs.1, fun h => hs.2 fun h' => h (hm h')⟩
  | host d h hname => exact hs
  | union stream mount => exact fun h => hs fun h' => h (hm h')

theorem Same.kseek {whence : Int} (hs : Same k m c c') :
    (kseek k c off whence).1 = (kseek k c' off whence).1 ∧
      Same k (moved k c m (.kseek off whence)) (kseek k c off whence).2 (kseek k c' off whence).2 := by
  unfold Rread.kseek
  rw [← hs.1]
  cases ht : target k c.offset off whence with
  | error err => exact ⟨rfl, hs.mono fun hm => ⟨hm, err, ht⟩⟩
  | ok o =>
    refine ⟨rfl, rfl, target_nonneg ht, ?_⟩
    have hs := hs.2.2
    cases k with
    | file stream read length => trivial
    | dev stream gen stop hs' => exact ⟨zero_le, fun _ => rfl⟩
    | host d h hname =>
      obtain rfl : o = 0 := target_dir rfl ht
      exact ⟨hs.1, hs.2.1, .inr ⟨[], List.nil_prefix, rfl⟩⟩
    | union stream mount => exact fun _ => rfl

theorem unionread_ended {mount : List (Option (Directory σ))} {u : Sysfile.Chan σ} (h : ¬ u.uri < mount.length) :
    unionread mount raise u va = ([], u) := by
  rw [unionread, List.drop_eq_nil_of_le (not_lt.1 h)]
  rfl

theorem Same.kpread (hs : Same k m c c') (hfits : k.Fits) (hkept : Kept k (c, m) (.kpread raise va off)) :
    Same k (moved k c m (.kpread raise va off)) (kpread k c raise va off).2 c' := by
  unfold Rread.kpread
  by_cases hneg : off < 0 ∧ ∀ stream mount, k ≠ .union stream mount
  · rw [@rread_neg _ _ _ _ _ (some off) hneg.2 hneg.1]
    exact hs.mono .inl
  have hread := fun (hk : ∀ stream mount, k ≠ .union stream mount) =>
    @rread_spec _ k c raise va (some off) hk (not_lt.1 fun h => hneg ⟨h, hk⟩)
  simp only [getD_some, start_offset, start_some, isNone_some, Bool.false_eq_true, if_false, Int.add_zero]
    at hread
  obtain ⟨hoff, hpos, hs⟩ := hs
  cases k with
  | file stream read length =>
    obtain ⟨-, -, ho⟩ := hread fun _ _ h => by cases h
    exact ⟨ho.trans hoff, ho ▸ hpos, trivial⟩
  | dev stream gen stop hs' =>
    obtain ⟨hle, hsame⟩ := hs
    obtain ⟨-, hst, ho⟩ := hread fun _ _ h => by cases h
    obtain ⟨hle', hstays⟩ := devRead_dri hs' c.st hle va off.toNat
    refine ⟨ho.trans hoff, ho ▸ hpos, ?_, fun hm => ?_⟩
    · rw [hst]
      exact hle'
    · rw [hst, ← hsame fun h => hm (.inl h)]
      exact hstays fun h => hm (.inr ⟨not_lt.1 fun h => hneg ⟨h, fun _ _ h => by cases h⟩, h⟩)
  | host d h hname =>
    obtain ⟨hp, hp', hat⟩ := hs
    obtain ⟨-, hst, ho⟩ := hread fun _ _ h => by cases h
    have hoff' : 0 ≤ off := not_lt.1 fun h => hneg ⟨h, fun _ _ h => by cases h⟩
    obtain ⟨r, -, hall⟩ := hostRead hfits (hkept.2 d h hname rfl hoff') va
    obtain ⟨fs, hk, hpk⟩ := hall c.st hp
    rw [hk] at hst
    refine ⟨ho.trans hoff, ho ▸ hpos, ?_, hp', ?_⟩
    · rw [hst]
      exact hpk
    · rw [ho]
      exact hat
  | union stream mount =>
    refine ⟨hoff, hpos, fun hm => ?_⟩
    simp only [rread]
    rw [unionread_ended fun h => hm (.inr h)]
    exact hs fun h => hm (.inl h)

theorem same_opened (k : Kind σ) (m : Prop) : Same k m (opened k) (opened k) := by
  cases k with
  | file stream read length => exact ⟨rfl, le_rfl, trivial⟩
  | dev stream gen stop hs => exact ⟨rfl, le_rfl, zero_le, fun _ => rfl⟩
  | host d h hname =>
    have hp := Devfs.placed_opened d h
    exact ⟨rfl, le_rfl, hp, hp, .inr ⟨[], List.nil_prefix, rfl⟩⟩
  | union stream mount => exact ⟨rfl, le_rfl, fun _ => rfl⟩

theorem devRead_skips (hs : Dev.Stops gen stop) {st st' : DirSt} (hdri : st.dri ≤ stop)
    (hskip : ∀ i < st.dri, gen i = .skip) (hst' : st'.dri = 0) (va : Bytes) (n n' : Nat) :
    ((Directory.dev gen stop hs).read st va n).1 = ((Directory.dev gen stop hs).read st' va n').1 := by
  by_cases hva : 0 < va.length
  · have hsame := devdirread_skips hs hdri hskip hva
    rw [← hst'] at hsame
    cases hr : Dev.devdirread gen (stop + 1) va st.dri with
    | none => rw [dev_read_none n hr, dev_read_none n' (hsame.trans hr)]
    | some r => rw [dev_read_some n hr, dev_read_some n' (hsame.trans hr)]
  · obtain rfl := List.length_eq_zero_iff.1 (Nat.eq_zero_of_not_pos hva)
    rfl

theorem Same.first (hs : Same k m c c') (hfits : k.Fits) (hk : k.isDir = true) (hstart : AtStart k c) :
    (Rread.kpread k c raise va 0).1 = (Rread.kread k (opened k) raise va).1 := by
  unfold Rread.kpread Rread.kread
  have hread := fun hk => @rread_spec _ k c raise va (some 0) hk le_rfl
  have hread' := fun hk => @rread_spec _ k (opened k) raise va none hk
    (same_opened k m).2.1
  simp only [start_some] at hread
  have hs := hs.2.2
  cases k with
  | file stream read length => cases hk
  | dev stream gen stop hs' =>
    obtain ⟨hr, -, -⟩ := hread fun _ _ h => by cases h
    obtain ⟨hr', -, -⟩ := hread' fun _ _ h => by cases h
    rw [hr, hr']
    exact devRead_skips hs' hs.1 hstart rfl va _ _
  | host d h hname =>
    obtain ⟨hr, -, -⟩ := hread fun _ _ h => by cases h
    obtain ⟨hr', -, -⟩ := hread' fun _ _ h => by cases h
    obtain ⟨r, -, hall⟩ := hostRead (n := 0) hfits (.inr ⟨[], List.nil_prefix, rfl⟩) va
    obtain ⟨fs, h₁, -⟩ := hall c.st hs.1
    obtain ⟨fs', h₂, -⟩ := hall (start (opened (.host d h hname)) none).st (Devfs.placed_opened d h)
    have hzero : (Option.getD none (opened (.host d h hname : Kind σ)).offset).toNat = 0 := rfl
    rw [hr, hr', hzero, h₂, getD_some, Int.toNat_zero, h₁]
  | union stream mount =>
    obtain ⟨huri, humc⟩ := hstart
    have hu : c.u = ⟨0, none⟩ := by
      rw [← huri, ← humc]
    simp only [rread, hu]
    rfl

theorem run_frame {calls : List Call} (hs : Same k m c c') (hfits : k.Fits) (h : Along (step k) (Kept k) (c, m) calls) :
    results k c calls = results k c' (calls.filter Call.original) ∧
      Each (step k) (fun s a _ => First k s.1 a) (c, m) calls := by
  induction calls generalizing c c' m with
  | nil => exact ⟨rfl, trivial⟩
  | cons a as ih =>
    obtain ⟨hkept, hrest⟩ := h _ rfl
    cases a with
    | kread raise va =>
      obtain ⟨hr, hs'⟩ := @Same.kread _ _ _ _ raise va _ hs hfits hkept
      obtain ⟨hres, heach⟩ := ih hs' hrest
      refine ⟨?_, fun s₁ hs₁ => ⟨trivial, ?_⟩⟩
      · simp only [results, Call.original, if_true, call, hr]
        exact congrArg _ hres
      · cases hs₁
        exact heach
    | kpread raise va off =>
      obtain ⟨hres, heach⟩ := ih (hs.kpread hfits hkept) hrest
      refine ⟨?_, fun s₁ hs₁ => ⟨?_, ?_⟩⟩
      · simpa [results, Call.original, call] using hres
      · rintro hk rfl
        exact hs.first hfits hk (hkept.1 rfl)
      · cases hs₁
        exact heach
    | kseek off whence =>
      obtain ⟨hr, hs'⟩ := @Same.kseek _ _ _ _ off _ whence hs
      obtain ⟨hres, heach⟩ := ih hs' hrest
      refine ⟨?_, fun s₁ hs₁ => ⟨trivial, ?_⟩⟩
      · simp only [results, Call.original, if_true, call, hr]
        exact congrArg _ hres
      · cases hs₁
        exact heach

/-- Calls of `kpread` change nothing that other calls return, and at offset 0 of a directory give its first entries, if
a `kread` never finds a position that a `kpread` has moved, nor a `kpread` at offset 0 one that is not at the start, and
in a directory of the host each is at an entry. -/
theorem kpread_frame (k : Kind σ) (hfits : k.Fits) (calls : List Call)
    (h : Along (step k) (Kept k) (opened k, False) calls) :
    results k (opened k) calls = results k (opened k) (calls.filter Call.original) ∧
      Each (step k) (fun s a _ => First k s.1 a) (opened k, False) calls :=
  run_frame (same_opened k False) hfits h

/-- Before the first `kread` of a directory of a device, which goes to the start by itself, a `kpread` does no harm. -/
theorem kept_before (stream : Bool) (hs : Dev.Stops gen stop) (raise : Nat → Option Raise) (va : Bytes) :
    Along (step (.dev stream gen stop hs : Kind σ)) (Kept (.dev stream gen stop hs))
    (opened (.dev stream gen stop hs), False)
      [.kpread raise va 0, .kread raise va] := by
  have hkept : Kept (.dev stream gen stop hs : Kind σ) (opened (.dev stream gen stop hs), False) (.kpread raise va 0) :=
    ⟨fun _ i hi => absurd hi (Nat.not_lt_zero i), fun d h hname heq => by cases heq⟩
  have hoff := (@Same.kpread _ _ _ _ raise va _ _
    (same_opened (.dev stream gen stop hs : Kind σ) False) trivial hkept).1
  refine fun s hs => ⟨hkept, fun s' _ => ⟨fun hm => ?_, trivial⟩⟩
  cases hs
  exact hm.2 ⟨⟨_, _, _, _, rfl⟩, hoff⟩

def entries2 : Kind DirSt := .dev false twoEntries 2 twoEntries_stops

def beforeRead : List Call := [.kpread (fun _ => none) sixty 0, .kread (fun _ => none) sixty]

theorem kpread_frame_entries2 :
    results entries2 (opened entries2) beforeRead = results entries2 (opened entries2)
    (beforeRead.filter Call.original) :=
  (kpread_frame entries2 trivial beforeRead (kept_before false twoEntries_stops _ _)).1

theorem devCall (stream : Bool) {hs : Dev.Stops gen stop} {es : List Bytes} (hpos : 0 ≤ offp.getD c.offset)
    (hdri : (start c offp).st.dri ≤ stop) (hes : Dev.entries gen (start c offp).st.dri stop = es)
    (hva : va.length < 2 ^ 31)
    (hshort : ¬ Short es va.length) :
    (rread (.dev stream gen stop hs) c raise va offp).1 = .ok (fill va.length es).1.flatten ∧
      (rread (.dev stream gen stop hs) c raise va offp).2.st.dri ≤ stop ∧
      Dev.entries gen (rread (.dev stream gen stop hs) c raise va offp).2.st.dri stop = (fill va.length es).2 ∧
      (rread (.dev stream gen stop hs) c raise va offp).2.offset =
        c.offset + if offp.isNone then ((fill va.length es).1.flatten.length : Int) else 0 := by
  subst hes
  obtain ⟨hr, hst, ho⟩ := @rread_spec _ (.dev stream gen stop hs) _ raise va _ (fun _ _ h => by cases h) hpos
  obtain ⟨st, hread, hleft, hat⟩ := (Directory.dev gen stop hs).read_ok (start c offp).st
    (offp.getD c.offset).toNat va hdri
    hva hshort
  have hread' : (Kind.dev stream gen stop hs : Kind σ).read (start c offp).st va (offp.getD c.offset).toNat =
    (.ok (fill va.length (Dev.entries gen (start c offp).st.dri stop)).1.flatten, st) := hread
  rw [hread'] at hr hst ho
  refine ⟨hr, by rw [hst]; exact hat, by rw [hst]; exact hleft, ?_⟩
  rw [ho, start_offset]
  rfl

/-- A `kpread` between two `kread`s takes the second entry. -/
theorem not_kpread_frame : ¬ ∀ (k : Kind DirSt) (calls : List Call),
    results k (opened k) calls = results k (opened k) (calls.filter Call.original) := by
  intro hall
  have he : (emptyDir 7).bytes.length = 49 := by decide
  have hlen : sixty.length = 60 := List.length_replicate
  generalize sixty = va at hlen
  generalize he' : (emptyDir 7).bytes = e at he
  have hfill₂ : fill va.length [e, e] = ([e], [e]) := by simp [fill, hlen, he]
  have hfill₁ : fill va.length [e] = ([e], []) := by simp [fill, hlen, he]
  have hshort₂ : ¬ Short [e, e] va.length := by simp [short_cons, hlen, he]
  have hshort₁ : ¬ Short [e] va.length := by simp [short_cons, hlen, he]
  have hva : va.length < 2 ^ 31 := by omega
  let c₀ : Chan DirSt := opened entries2
  obtain ⟨-, hdri₁, hleft₁, hoff₁⟩ := @devCall _ c₀ (fun _ => none) va none _ _ false twoEntries_stops [e, e]
    le_rfl (Nat.zero_le 2) (by rw [← he']; rfl) hva hshort₂
  generalize hc₁ : (rread (.dev false twoEntries 2 twoEntries_stops) c₀ (fun _ => none) va none).2 =
    c₁ at hdri₁ hleft₁ hoff₁
  have hpos₁ : c₁.offset = 49 := by
    rw [hoff₁, hfill₂]
    simp [he]
    rfl
  rw [hfill₂] at hleft₁
  have hget₁ : (none : Option Int).getD c₁.offset = 49 := hpos₁
  have hstart₁ : (start c₁ none).st.dri = c₁.st.dri := by rw [start_dri, if_neg (by rw [hpos₁]; decide)]
  -- the second read, without the call between
  obtain ⟨hr₁, -⟩ := @devCall _ c₁ (fun _ => none) va none _ _ false twoEntries_stops [e]
    (by rw [hget₁]; decide) (hstart₁ ▸ hdri₁) (hstart₁ ▸ hleft₁) hva hshort₁
  obtain ⟨-, hdri₂, hleft₂, hoff₂⟩ := @devCall _ c₁ (fun _ => none) va (some 0) _ _ false twoEntries_stops [e]
    le_rfl (by rw [start_some]; exact hdri₁) (by rw [start_some]; exact hleft₁) hva hshort₁
  generalize hc₂ : (rread (.dev false twoEntries 2 twoEntries_stops) c₁ (fun _ => none) va (some 0)).2 = c₂
    at hdri₂ hleft₂ hoff₂
  have hpos₂ : c₂.offset = 49 := by
    rw [hoff₂, hpos₁]
    rfl
  rw [hfill₁] at hleft₂
  have hget₂ : (none : Option Int).getD c₂.offset = 49 := hpos₂
  have hstart₂ : (start c₂ none).st.dri = c₂.st.dri := by rw [start_dri, if_neg (by rw [hpos₂]; decide)]
  obtain ⟨hr₂, -⟩ := @devCall _ c₂ (fun _ => none) va none _ _ false twoEntries_stops []
    (by rw [hget₂]; decide) (hstart₂ ▸ hdri₂) (hstart₂ ▸ hleft₂) hva not_short_nil
  have hres := hall entries2 [.kread (fun _ => none) va, .kpread (fun _ => none) va 0, .kread (fun _ => none) va]
  have hstate₁ : (Rread.kread entries2 (opened entries2) (fun _ => none) va).2 = c₁ := hc₁
  have hstate₂ : (Rread.kpread entries2 c₁ (fun _ => none) va 0).2 = c₂ := hc₂
  have hret₁ : (Rread.kread entries2 c₁ (fun _ => none) va).1 = .ok e := by
    rw [hfill₁] at hr₁
    exact hr₁.trans (congrArg Except.ok (List.append_nil e))
  have hret₂ : (Rread.kread entries2 c₂ (fun _ => none) va).1 = .ok [] := hr₂
  have hfilter : [Call.kread (fun _ => none) va, .kpread (fun _ => none) va 0,
    .kread (fun _ => none) va].filter Call.original =
      [.kread (fun _ => none) va, .kread (fun _ => none) va] := rfl
  rw [hfilter] at hres
  simp [results, call, Call.original, hstate₁, hstate₂, hret₁, hret₂, Except.map] at hres
  rw [hres] at he
  cases he

end Node9.Rread
