import Node9.Dev
import Node9.FsWalk
import Node9.LuaNumber
import Node9.Lib.Steps

/-!
# Reading the host's directories (`fsdirread` in `devfs-posix.c`)

`readdir` gives the entries of a directory (`Dirent`) one after the other, and `fsdirread` has each of them looked up
with `xstat`. The entries do not change; what is found there can, from one read to the next (`Files`). `FS(c)->de` is an
entry that did not fit, `FS(c)->offset` how many bytes have been given. A `count` is an `int`, and the buffer is as
long.
-/

namespace Node9.Devfs
open Buf Names Listing Steps
open Option hiding all_eq_true
open List hiding lex
open Lua (decimal decimal_spec)

def MAXPATH : Nat := 1024
def NUMSIZE : Nat := 11

/-- `struct stat` -/
structure DirStat extends Stat where
  st_atime : UInt32
  st_size : Int64

structure Dirent where
  d_ino : Nat
  d_name : CStr
  d_name_le : d_name.strlen ≤ 255

/-- What the host says during a read: of files, of the disk that is opened to ask for its size, of users and groups. -/
structure Files where
  stat : Bytes → Option DirStat
  lstat : Bytes → Option DirStat
  osdisksize : Bytes → Option Int64
  user : Int32 → Option CStr
  group : Int32 → Option CStr
  user_lt : ∀ id u, user id = some u → u.strlen < 2 ^ 16
  group_lt : ∀ id u, group id = some u → u.strlen < 2 ^ 16

def Files.xstat (h : Files) (f : Bytes) : Option DirStat := (h.stat f).orElse fun _ => h.lstat f

def S_ISBLK (mode : UInt32) : Bool := mode &&& S_IFMT = 0o060000

def DMDIR : UInt32 := 0x80000000

theorem zero_not_mem_id (id : Int32) : (0 : UInt8) ∉ (sharp :: decimal id.toUInt32.toNat).take (NUMSIZE - 1) := by
  intro h
  rcases mem_cons.1 (mem_of_mem_take h) with h | h
  · cases h
  · have hdigit := all_eq_true.1 (decimal_spec id.toUInt32.toNat).1.2 0 h
    cases hdigit

/-- `snprint(uidbuf, sizeof(uidbuf), "#%lud", id)` -/
def idbuf (id : Int32) : CStr := ⟨(sharp :: decimal id.toUInt32.toNat).take (NUMSIZE - 1), zero_not_mem_id id⟩

/-- The entry that `fsdirconv` makes. -/
def fsdir (h : Files) (dev : UInt32) (path : Bytes) (name : CStr) (s : DirStat) : Dir CharPtr :=
  let qid := fsqid s.toStat
  let mode := (qid.type.toUInt32 <<< 24) ||| (s.st_mode &&& 0o777)
  { name := some name
    uid := some ((h.user s.st_uid).getD (idbuf s.st_uid))
    gid := some ((h.group s.st_gid).getD (idbuf s.st_gid))
    muid := some .empty
    qid := qid
    mode := mode
    atime := s.st_atime
    mtime := s.st_mtime
    length :=
      if mode &&& DMDIR ≠ 0 then 0
      else if S_ISBLK s.st_mode ∧ s.st_size = 0 then (h.osdisksize path).getD s.st_size
      else s.st_size
    type := 85
    dev := dev }

/-- `fsdirconv` for a reader of directories. -/
def fsdirconv (h : Files) (dev : UInt32) (path : Bytes) (name : CStr) (s : DirStat) (va : Bytes) :
    Option (Int × Bytes) :=
  let d := fsdir h dev path name s
  if va.length < (sizeD2M d).toNat then some (-1, va)
  else (convD2M d va).map fun x => (x.1.toNat, x.2)

/-- `if(path[n-1] != '/') path[n++] = '/'` -/
def slashed (name : Bytes) : Bytes := if name.getLast? = some slash then name else name ++ [slash]

/-- `fspath` of no name. There is no result if the name of the directory is too long, for which it panics, or if there
is no room for the slash. -/
def fspath (name : Bytes) : Option Bytes := if (slashed name).length < MAXPATH then some (slashed name) else none

/-- `strecpy` at the end of a path, up to the end of the array. -/
def strecpy (path name : Bytes) : Bytes := path ++ name.take (MAXPATH - path.length - 1)

def isdots (name : Bytes) : Bool := name = [dot] || name = [dot, dot]

/-- `if(de->d_ino==0 || de->d_name[0]==0 || isdots(de->d_name))` -/
def Dirent.skipped (de : Dirent) : Bool := de.d_ino = 0 || de.d_name.bytes = [] || isdots de.d_name.bytes

/-- An open directory: its name, the device, what `readdir` gives from its start. -/
structure OpenDir where
  name : Bytes
  dev : UInt32
  listing : List Dirent

/-- What of `Fsinfo` is for reading a directory; of `dir` what `readdir` has not given yet. -/
structure Fs where
  dir : List Dirent
  de : Option Dirent
  offset : Nat
  eod : Bool

/-- `fsopen` -/
def OpenDir.opened (d : OpenDir) : Fs := ⟨d.listing, none, 0, false⟩

/-- The entry in `FS(c)->de`, or the next. -/
def Fs.next (fs : Fs) : Option (Dirent × Fs) :=
  match fs.de with
  | some de => some (de, { fs with de := none })
  | none => match fs.dir with
    | [] => none
    | de :: dir => some (de, { fs with dir := dir })

/-- How the search for an offset ends: with 0 for the reader, or there. -/
inductive Sought
  | ret (fs : Fs)
  | there (fs : Fs)

/-- The size of the buffer for the entries that are passed over. -/
def slopSize : Nat := 8192

/-- The loop that reads up to `offset`, with what is left in `dir`. -/
def seekLoop (d : OpenDir) (h : Files) (path : Bytes) (offset : Nat) : List Dirent → Nat → Option Sought
  | [], n => some (if n < offset then .ret ⟨[], none, n, true⟩ else .there ⟨[], none, offset, false⟩)
  | de :: dir, n =>
    if n < offset then
      if de.skipped then seekLoop d h path offset dir n
      else
        let path' := strecpy path de.d_name.bytes
        match h.xstat path' with
        | none => seekLoop d h path offset dir n
        | some st => do
          let (r, _) ← fsdirconv h d.dev path' de.d_name st (List.replicate slopSize 0)
          if r ≤ 0 then some (.ret ⟨dir, none, n, false⟩) else seekLoop d h path offset dir (n + r.toNat)
    else some (.there ⟨de :: dir, none, offset, false⟩)

/-- The loop that fills the buffer, and how far it has come. -/
def fsdirreadLoop (d : OpenDir) (h : Files) (path : Bytes) : Nat → Fs → Bytes → Nat → Option (Fs × Bytes × Nat)
  | 0, _, _, _ => none
  | k + 1, fs, va, i =>
    if i < va.length then
      match fs.next with
      | none => some ({ fs with eod := true }, va, i)
      | some (de, fs) =>
        if de.skipped then fsdirreadLoop d h path k fs va i
        else
          let path' := strecpy path de.d_name.bytes
          match h.xstat path' with
          | none => fsdirreadLoop d h path k fs va i
          | some st => do
            let (r, b) ← fsdirconv h d.dev path' de.d_name st (va.drop i)
            let va := va.take i ++ b
            if r ≤ 0 then some ({ fs with de := some de }, va, i)
            else fsdirreadLoop d h path k { fs with offset := fs.offset + r.toNat } va (i + r.toNat)
    else some (fs, va, i)

/-- The entries that have not been given. -/
def Fs.left (fs : Fs) : List Dirent := fs.de.toList ++ fs.dir

/-- The state after a read, what the reader is given. -/
def fsdirread (d : OpenDir) (h : Files) (fs : Fs) (va : Bytes) (offset : Nat) : Option (Fs × Bytes) := do
  let path ← fspath d.name
  let sought ← if fs.offset ≠ offset then seekLoop d h path offset d.listing 0 else some (.there fs)
  match sought with
  | .ret fs => some (fs, [])
  | .there fs =>
    if fs.eod then some (fs, [])
    else
      let (fs, va, i) ← fsdirreadLoop d h path (fs.left.length + 1) fs va 0
      some (fs, va.take i)

variable {d : OpenDir} {h : Files} {fs fs' : Fs} {de : Dirent} {st : DirStat} {va path : Bytes} {k i : Nat}

/-- What the reads show of a file, if it is found. -/
def OpenDir.shown (d : OpenDir) (h : Files) (de : Dirent) : Option (Dir CharPtr) :=
  if de.skipped then none
  else
    let path := strecpy (slashed d.name) de.d_name.bytes
    (h.xstat path).map (fsdir h d.dev path de.d_name)

def OpenDir.enc (d : OpenDir) (h : Files) (de : Dirent) : Option Bytes := (d.shown h de).map Dir.bytes

theorem fspath_eq (hname : (slashed d.name).length < MAXPATH) : fspath d.name = some (slashed d.name) := if_pos hname

theorem strlen_idbuf (id : Int32) : (idbuf id).strlen < 2 ^ 16 := by
  have hle : (idbuf id).strlen ≤ NUMSIZE - 1 := length_take_le ..
  have hlt : NUMSIZE - 1 < 2 ^ 16 := by decide
  omega

theorem size_fsdir_lt (h : Files) (dev : UInt32) (path : Bytes) (de : Dirent) (st : DirStat) :
    (fsdir h dev path de.d_name st).size < 2 ^ 32 := by
  have hname := de.d_name_le
  have hid : ∀ {id : Int32} {u : Option CStr}, (∀ v, u = some v → v.strlen < 2 ^ 16) →
    (u.getD (idbuf id)).strlen < 2 ^ 16 := by
    intro id u hu
    cases u with
    | none => exact strlen_idbuf id
    | some u => exact hu u rfl
  have huser := @hid st.st_uid _ (h.user_lt st.st_uid)
  have hgroup := @hid st.st_gid _ (h.group_lt st.st_gid)
  have hempty : CStr.empty.strlen = 0 := rfl
  have hfix : STATFIXLEN = 49 := rfl
  have hsize : (fsdir h dev path de.d_name st).size = STATFIXLEN + (de.d_name.strlen +
      (((h.user st.st_uid).getD (idbuf st.st_uid)).strlen + (((h.group st.st_gid).getD (idbuf st.st_gid)).strlen +
        (CStr.empty.strlen + 0)))) := rfl
  omega

theorem fsdirconv_fits (hfit : (fsdir h d.dev path de.d_name st).size ≤ va.length) :
    fsdirconv h d.dev path de.d_name st va =
      some (((fsdir h d.dev path de.d_name st).size : Int),
        (fsdir h d.dev path de.d_name st).bytes ++ va.drop (fsdir h d.dev path de.d_name st).size) := by
  have hlt := size_fsdir_lt h d.dev path de st
  unfold fsdirconv
  dsimp only
  rw [toNat_sizeD2M hlt, if_neg (by omega), convD2M_fits hlt hfit, map_some, toNat_sizeD2M hlt]

theorem fsdirconv_short (hshort : va.length < (fsdir h d.dev path de.d_name st).size) :
    fsdirconv h d.dev path de.d_name st va = some (-1, va) := by
  have hlt := size_fsdir_lt h d.dev path de st
  unfold fsdirconv
  dsimp only
  rw [toNat_sizeD2M hlt, if_pos hshort]

/-! ### Filling the buffer -/

theorem next_eq_none (hnext : fs.next = none) : fs.left = [] := by
  unfold Fs.next at hnext
  unfold Fs.left
  cases hde : fs.de with
  | some de => simp [hde] at hnext
  | none =>
    cases hdir : fs.dir with
    | nil => rfl
    | cons de dir => simp [hde, hdir] at hnext

theorem next_eq_some {fs₁ : Fs} (hnext : fs.next = some (de, fs₁)) :
    fs.left = de :: fs₁.left ∧ fs₁.de = none ∧ fs₁.offset = fs.offset ∧ fs₁.eod = fs.eod := by
  unfold Fs.next at hnext
  unfold Fs.left
  cases hde : fs.de with
  | some e =>
    rw [hde] at hnext
    cases hnext
    exact ⟨rfl, rfl, rfl, rfl⟩
  | none =>
    cases hdir : fs.dir with
    | nil => simp [hde, hdir] at hnext
    | cons e dir =>
      simp only [hde, hdir] at hnext
      cases hnext
      exact ⟨rfl, rfl, rfl, rfl⟩

theorem fsdirreadLoop_none {fs₁ : Fs} (hi : i < va.length) (hnext : fs.next = some (de, fs₁))
    (hde : d.shown h de = none) :
    fsdirreadLoop d h (slashed d.name) (k + 1) fs va i = fsdirreadLoop d h (slashed d.name) k fs₁ va i := by
  rw [fsdirreadLoop, if_pos hi, hnext]
  dsimp only
  unfold OpenDir.shown at hde
  split_ifs at hde ⊢
  · rfl
  · rw [map_eq_none_iff.1 hde]

theorem fsdirreadLoop_some {fs₁ : Fs} {e : Dir CharPtr} (hi : i < va.length) (hnext : fs.next = some (de, fs₁))
    (hde : d.shown h de = some e) :
    (e.size ≤ va.length - i → fsdirreadLoop d h (slashed d.name) (k + 1) fs va i =
      fsdirreadLoop d h (slashed d.name) k { fs₁ with offset := fs₁.offset + e.size }
        (va.take i ++ (e.bytes ++ (va.drop i).drop e.size)) (i + e.size)) ∧
    (va.length - i < e.size →
      fsdirreadLoop d h (slashed d.name) (k + 1) fs va i = some ({ fs₁ with de := some de }, va, i)) := by
  have hdrop : (va.drop i).length = va.length - i := length_drop ..
  unfold OpenDir.shown at hde
  split_ifs at hde with hskip
  obtain ⟨st, hst, rfl⟩ := map_eq_some_iff.1 hde
  rw [fsdirreadLoop, if_pos hi, hnext]
  dsimp only
  rw [if_neg hskip, hst]
  refine ⟨fun hfit => ?_, fun hshort => ?_⟩
  · have hpos : 0 < (fsdir h d.dev (strecpy (slashed d.name) de.d_name.bytes) de.d_name st).size :=
      lt_of_lt_of_le (by decide) (Nat.le_add_right STATFIXLEN _)
    dsimp only
    rw [fsdirconv_fits (by omega)]
    simp only [bind_eq_bind, bind_some, Int.toNat_natCast]
    rw [if_neg (by omega)]
  · dsimp only
    rw [fsdirconv_short (by omega)]
    simp only [bind_eq_bind, bind_some, take_append_drop]
    rw [if_pos (by decide)]

/-- What the entries are, for a reader. -/
def OpenDir.encs (d : OpenDir) (h : Files) (des : List Dirent) : List Bytes := des.filterMap (d.enc h)

theorem encs_ne_nil {des : List Dirent} : ∀ e ∈ d.encs h des, e ≠ [] := by
  intro e he
  obtain ⟨de, -, he⟩ := mem_filterMap.1 he
  obtain ⟨x, -, rfl⟩ := map_eq_some_iff.1 he
  exact length_pos_iff.1 (Dev.length_bytes_pos x)

/-- As many of the entries that are left are given as go into `n` bytes. -/
structure Filled (d : OpenDir) (h : Files) (fs : Fs) (n : Nat) (fs' : Fs) (r : Bytes) : Prop where
  given : ∃ us, fs.left = us ++ fs'.left ∧ d.encs h us = (fill n (d.encs h fs.left)).1
  left : d.encs h fs'.left = (fill n (d.encs h fs.left)).2
  result : r = (fill n (d.encs h fs.left)).1.flatten
  offset : fs'.offset = fs.offset + r.length
  eod : fs'.eod = true → fs.eod = true ∨ fs'.left = []

variable {fs₁ : Fs} {n : Nat} {r : Bytes}

theorem enc_none (hde : d.shown h de = none) : d.enc h de = none := congrArg (Option.map Dir.bytes) hde

theorem enc_some {e : Dir CharPtr} (hde : d.shown h de = some e) : d.enc h de = some e.bytes :=
  congrArg (Option.map Dir.bytes) hde

theorem Filled.skip (hleft : fs.left = de :: fs₁.left) (hoff : fs₁.offset = fs.offset) (heod : fs₁.eod = fs.eod)
    (hde : d.shown h de = none) (hf : Filled d h fs₁ n fs' r) : Filled d h fs n fs' r := by
  have hencs : ∀ us, d.encs h (de :: us) = d.encs h us := fun us => filterMap_cons_none (enc_none hde)
  obtain ⟨⟨us, hus, hgiven⟩, hleft', hr, hoff', heod'⟩ := hf
  rw [← hencs fs₁.left, ← hleft] at hgiven hleft' hr
  refine ⟨⟨de :: us, by rw [hleft, hus]; rfl, ?_⟩, hleft', hr, by rw [hoff', hoff], by rwa [heod] at heod'⟩
  rw [hencs, hgiven]

theorem Filled.cons {e : Dir CharPtr} (hleft : fs.left = de :: fs₁.left) (hoff : fs₁.offset = fs.offset + e.size)
    (heod : fs₁.eod = fs.eod) (hde : d.shown h de = some e) (hfit : e.size ≤ n)
    (hf : Filled d h fs₁ (n - e.size) fs' r) : Filled d h fs n fs' (e.bytes ++ r) := by
  have hencs : ∀ us, d.encs h (de :: us) = e.bytes :: d.encs h us := fun us => filterMap_cons_some (enc_some hde)
  have hsize := Dir.length_bytes e
  have hfill : fill n (d.encs h fs.left) = (e.bytes :: (fill (n - e.size) (d.encs h fs₁.left)).1,
      (fill (n - e.size) (d.encs h fs₁.left)).2) := by
    rw [hleft, hencs, fill, if_neg (by omega), hsize]
  obtain ⟨⟨us, hus, hgiven⟩, hleft', hr, hoff', heod'⟩ := hf
  refine ⟨⟨de :: us, by rw [hleft, hus]; rfl, ?_⟩, by rw [hfill, hleft'], by rw [hfill, hr]; rfl, ?_, by rwa [heod] at heod'⟩
  · rw [hfill, hencs, hgiven]
  · rw [hoff', hoff, length_append, hsize, add_assoc]

theorem Filled.stop (hleft : fs'.left = fs.left) (hoff : fs'.offset = fs.offset)
    (heod : fs'.eod = true → fs.eod = true ∨ fs'.left = [])
    (hfill : fill n (d.encs h fs.left) = ([], d.encs h fs.left)) : Filled d h fs n fs' [] :=
  ⟨⟨[], by rw [hleft]; rfl, by rw [hfill]; rfl⟩, by rw [hleft, hfill], by rw [hfill]; rfl, hoff, heod⟩

theorem fsdirreadLoop_spec (hk : fs.left.length < k) (hi : i ≤ va.length) :
    ∃ fs' va' r, fsdirreadLoop d h (slashed d.name) k fs va i = some (fs', va', i + r.length) ∧
      va'.take (i + r.length) = va.take i ++ r ∧ Filled d h fs (va.length - i) fs' r := by
  induction k generalizing fs va i with
  | zero => omega
  | succ k ih =>
    by_cases hroom : i < va.length
    · cases hnext : fs.next with
      | none =>
        have hnil := next_eq_none hnext
        refine ⟨{ fs with eod := true }, va, [], ?_, by simp, .stop rfl rfl (fun _ => .inr hnil) (by rw [hnil]; rfl)⟩
        rw [fsdirreadLoop, if_pos hroom, hnext]
        rfl
      | some x =>
        obtain ⟨de, fs₁⟩ := x
        obtain ⟨hleft, hde₁, hoff₁, heod₁⟩ := next_eq_some hnext
        rw [hleft, length_cons] at hk
        cases hde : d.shown h de with
        | none =>
          obtain ⟨fs', va', r, hloop, htake, hfill⟩ := @ih fs₁ _ _ (by omega) hi
          exact ⟨fs', va', r, (fsdirreadLoop_none hroom hnext hde).trans hloop, htake, hfill.skip hleft hoff₁ heod₁ hde⟩
        | some e =>
          have hsize := Dir.length_bytes e
          obtain ⟨hfits, hkept⟩ := fsdirreadLoop_some (k := k) hroom hnext hde
          by_cases hfit : e.size ≤ va.length - i
          · have hlenva : (va.take i ++ (e.bytes ++ (va.drop i).drop e.size)).length = va.length := by
              simp only [length_append, length_take_of_le hi, length_drop]
              omega
            have htakeva : (va.take i ++ (e.bytes ++ (va.drop i).drop e.size)).take (i + e.size) =
              va.take i ++ e.bytes := by
              rw [← append_assoc, take_left']
              rw [length_append, length_take_of_le hi, hsize]
            obtain ⟨fs', va', r, hloop, htake, hfill⟩ := @ih { fs₁ with offset := fs₁.offset + e.size }
              (va.take i ++ (e.bytes ++ (va.drop i).drop e.size)) (i + e.size)
              (lt_of_eq_of_lt rfl (Nat.lt_of_succ_lt_succ hk)) (by omega)
            rw [hlenva, Nat.sub_add_eq] at hfill
            have hlenr : (e.bytes ++ r).length = e.size + r.length := by rw [length_append, hsize]
            refine ⟨fs', va', e.bytes ++ r, ?_, ?_, ?_⟩
            · rw [hfits hfit, hlenr, ← add_assoc]
              exact hloop
            · rw [hlenr, ← add_assoc, htake, htakeva, append_assoc]
            · exact @Filled.cons _ _ _ _ _ { fs₁ with offset := fs₁.offset + e.size } _ _ _ hleft
                (congrArg (· + e.size) hoff₁)
                heod₁ hde hfit hfill
          · have hkeep : Fs.left { fs₁ with de := some de } = fs.left := by
              rw [hleft]
              simp [Fs.left, hde₁]
            refine ⟨_, va, [], hkept (by omega), by simp, .stop hkeep hoff₁ (fun heod => .inl (heod₁ ▸ heod)) ?_⟩
            rw [hleft, OpenDir.encs, filterMap_cons_some (enc_some hde), fill, if_pos (by omega)]
    · have hzero : va.length - i = 0 := by omega
      refine ⟨fs, va, [], by rw [fsdirreadLoop, if_neg hroom]; rfl, by simp, .stop rfl rfl .inl ?_⟩
      rw [hzero]
      exact fill_zero encs_ne_nil

theorem fsdirread_spec (hname : (slashed d.name).length < MAXPATH) (heod : fs.eod = true → fs.left = []) :
    ∃ fs' r, fsdirread d h fs va fs.offset = some (fs', r) ∧ Filled d h fs va.length fs' r := by
  by_cases hend : fs.eod = true
  · refine ⟨fs, [], ?_, .stop rfl rfl .inl (by rw [heod hend]; rfl)⟩
    simp [fsdirread, fspath_eq hname, hend]
  obtain ⟨fs', va', r, hloop, htake, hfill⟩ := @fsdirreadLoop_spec d h _ va _ 0
    (Nat.lt_succ_self fs.left.length) zero_le
  rw [Nat.sub_zero] at hfill
  refine ⟨fs', r, ?_, hfill⟩
  simp only [zero_add, take_zero, nil_append] at hloop htake
  simp [fsdirread, fspath_eq hname, hend, hloop, htake]

/-! ### Reading to the end -/

/-- An open channel: `FS(c)`, and `c->offset`, which goes on by what a read gives. -/
structure Reader where
  fs : Fs
  offset : Nat

/-- A read of the channel: what is in the host then, and the buffer. -/
def Reader.read (d : OpenDir) (s : Reader) (a : Files × Bytes) : Option (Bytes × Reader) :=
  (fsdirread d a.1 s.fs a.2 s.offset).map fun x => (x.2, ⟨x.1, s.offset + x.2.length⟩)

def Reader.reads (d : OpenDir) : Reader → List (Files × Bytes) → Option (List Bytes × Reader)
  | s, [] => some ([], s)
  | s, a :: as => (s.read d a).bind fun x => (x.2.reads d as).map fun y => (x.1 :: y.1, y.2)

/-- The entry of a file, if it is there. -/
def OpenDir.entry (d : OpenDir) (h : Files) (de : Dirent) : Option (Dir CharPtr) :=
  if de.skipped then none
  else (h.xstat (slashed d.name ++ de.d_name.bytes)).map (fsdir h d.dev (slashed d.name ++ de.d_name.bytes) de.d_name)

def OpenDir.entries (d : OpenDir) (h : Files) (des : List Dirent) : List Bytes :=
  des.filterMap fun de => (d.entry h de).map Dir.bytes

structure OpenDir.Short (d : OpenDir) : Prop where
  name : (slashed d.name).length < MAXPATH
  paths : ∀ de ∈ d.listing, (slashed d.name).length + de.d_name.strlen < MAXPATH

theorem encs_eq {des : List Dirent} (hd : d.Short) (hdes : des ⊆ d.listing) (h : Files) :
    d.encs h des = d.entries h des := by
  refine filterMap_congr fun de hde => ?_
  have hlen := hd.paths de (hdes hde)
  unfold CStr.strlen at hlen
  have hpath : strecpy (slashed d.name) de.d_name.bytes = slashed d.name ++ de.d_name.bytes := by
    rw [strecpy, take_of_length_le (by omega)]
  rw [OpenDir.enc, OpenDir.shown, hpath]
  rfl

/-- A read is too small for the first of the entries that are left. -/
def TooSmall (d : OpenDir) (s : Reader) (a : Files × Bytes) : Prop :=
  ∃ e ∈ (d.entries a.1 s.fs.left).head?, a.2.length < e.length

/-- What a read should give: the entries that it finds of those that are next, and nothing only if none is left. -/
structure Delivered (d : OpenDir) (s : Reader) (a : Files × Bytes) (r : Bytes) (s' : Reader) : Prop where
  whole : ∃ us, s.fs.left = us ++ s'.fs.left ∧ r = (d.entries a.1 us).flatten
  length : r.length ≤ a.2.length
  nil : r = [] → d.entries a.1 s'.fs.left = []

def Delivers (d : OpenDir) : Reader → List (Files × Bytes) → Prop
  | _, [] => True
  | s, a :: as => ∃ r s', s.read d a = some (r, s') ∧ Delivered d s a r s' ∧ Delivers d s' as

/-- A channel that has only been read. -/
structure Reader.Good (d : OpenDir) (s : Reader) : Prop where
  offset : s.offset = s.fs.offset
  left : s.fs.left <:+ d.listing
  eod : s.fs.eod = true → s.fs.left = []

variable {s s' : Reader} {a : Files × Bytes} {as : List (Files × Bytes)}

theorem good_opened (d : OpenDir) : Reader.Good d ⟨d.opened, 0⟩ :=
  ⟨rfl, suffix_refl _, fun h => by cases h⟩

theorem read_spec (hd : d.Short) (hs : s.Good d) (a : Files × Bytes) :
    ∃ r s', s.read d a = some (r, s') ∧ s'.Good d ∧ Filled d a.1 s.fs a.2.length s'.fs r := by
  obtain ⟨fs', r, hread, hfill⟩ := @fsdirread_spec _ a.1 _ a.2 hd.name hs.eod
  refine ⟨r, ⟨fs', s.offset + r.length⟩, ?_, ⟨?_, ?_, ?_⟩, hfill⟩
  · rw [Reader.read, hs.offset, hread]
    rfl
  · exact (congrArg (· + r.length) hs.offset).trans hfill.offset.symm
  · obtain ⟨us, hus, -⟩ := hfill.given
    exact (hus ▸ suffix_append us fs'.left).trans hs.left
  · intro h
    rcases hfill.eod h with heod | hnil
    · obtain ⟨us, hus, -⟩ := hfill.given
      exact (append_eq_nil_iff.1 (hus.symm.trans (hs.eod heod))).2
    · exact hnil

theorem delivered_iff (hd : d.Short) (hs : s.Good d) (hfill : Filled d a.1 s.fs a.2.length s'.fs r) :
    Delivered d s a r s' ↔ ¬ TooSmall d s a := by
  obtain ⟨us, hus, hgiven⟩ := hfill.given
  have hsub : s.fs.left ⊆ d.listing := hs.left.subset
  have hleft := encs_eq hd hsub a.1
  rw [hus, append_subset] at hsub
  have hleft' := encs_eq hd hsub.2 a.1
  have hus' := encs_eq hd hsub.1 a.1
  unfold TooSmall
  rw [← hleft]
  constructor
  · rintro hdel ⟨e, he, hshort⟩
    obtain ⟨es, hes⟩ : ∃ es, d.encs a.1 s.fs.left = e :: es := List.head?_eq_some_iff.1 he
    have hnil : fill a.2.length (d.encs a.1 s.fs.left) = ([], e :: es) := by rw [hes, fill, if_pos hshort]
    have hnone := hdel.nil (by rw [hfill.result, hnil]; rfl)
    rw [← hleft', hfill.left, hnil] at hnone
    cases hnone
  intro hfit
  refine ⟨⟨us, hus, by rw [← hus', hgiven, hfill.result]⟩, by rw [hfill.result]; exact fill_length _ _, fun hr => ?_⟩
  cases hes : d.encs a.1 s.fs.left with
  | nil =>
    rw [← hleft', hfill.left, hes]
    rfl
  | cons e es =>
    have hle : ¬ a.2.length < e.length := fun hlt => hfit ⟨e, by rw [hes]; rfl, hlt⟩
    rw [hfill.result, hes, fill, if_neg hle, flatten_cons] at hr
    exact absurd (append_eq_nil_iff.1 hr).1 (encs_ne_nil e (hes ▸ mem_cons_self))

theorem Delivers.reads (hdel : Delivers d s as) : ∃ rs s', s.reads d as = some (rs, s') ∧
    ∀ h, (∀ a ∈ as, a.1 = h) → rs.flatten ++ (d.entries h s'.fs.left).flatten = (d.entries h s.fs.left).flatten := by
  induction as generalizing s with
  | nil => exact ⟨[], s, rfl, fun h _ => rfl⟩
  | cons a as ih =>
    obtain ⟨r, s₁, hread, ⟨⟨us, hus, hr⟩, -, -⟩, hrest⟩ := hdel
    obtain ⟨rs, s', hreads, hflat⟩ := ih hrest
    refine ⟨r :: rs, s', by rw [Reader.reads, hread, bind_some, hreads]; rfl, fun h hall => ?_⟩
    obtain ⟨rfl, hall⟩ := forall_mem_cons.1 hall
    rw [flatten_cons, append_assoc, hflat a.1 hall, hr, hus, OpenDir.entries,
      OpenDir.entries, OpenDir.entries, filterMap_append, flatten_append]

theorem delivers_iff (hd : d.Short) (hs : s.Good d) :
    Delivers d s as ↔ Along (fun s a => (s.read d a).map Prod.snd) (fun s a => ¬ TooSmall d s a) s as := by
  induction as generalizing s with
  | nil => exact Iff.rfl
  | cons a as ih =>
    obtain ⟨r, s', hread, hs', hfill⟩ := read_spec hd hs a
    rw [@along_cons _ _ _ _ _ s' _ _ (by rw [hread]; rfl), ← ih hs', ← delivered_iff hd hs hfill]
    constructor
    · rintro ⟨r₁, s₁, hread₁, hdel⟩
      cases hread.symm.trans hread₁
      exact hdel
    · exact fun hdel => ⟨r, s', hread, hdel⟩

/-- The paths of a directory not being too long, its reads deliver all that is in it, each entry once, if and only if
none is too small for the entry that is next. -/
theorem fsdirread_delivers (hd : d.Short) (as : List (Files × Bytes)) :
    (Delivers d ⟨d.opened, 0⟩ as ↔
      Along (fun s a => (s.read d a).map Prod.snd) (fun s a => ¬ TooSmall d s a) ⟨d.opened, 0⟩ as) ∧
    (Delivers d ⟨d.opened, 0⟩ as → ∃ rs s, Reader.reads d ⟨d.opened, 0⟩ as = some (rs, s) ∧
      ∀ h, (∀ a ∈ as, a.1 = h) → rs.flatten ++ (d.entries h s.fs.left).flatten = (d.entries h d.listing).flatten) :=
  ⟨delivers_iff hd (good_opened d), Delivers.reads⟩

/-- A directory with a file `f`. -/
def oneFile : OpenDir where
  name := [slash]
  dev := 0
  listing := [⟨2, ⟨[dot], by decide⟩, by decide⟩, ⟨7, ⟨[102], by decide⟩, by decide⟩]

def plainFiles : Files where
  stat := fun _ => some ⟨⟨1, 7, 0o100644, 0, 0, 0⟩, 0, 0⟩
  lstat := fun _ => none
  osdisksize := fun _ => none
  user := fun _ => some ⟨[117], by decide⟩
  group := fun _ => some ⟨[103], by decide⟩
  user_lt := by rintro id u ⟨⟩; decide
  group_lt := by rintro id u ⟨⟩; decide

theorem oneFile_short : oneFile.Short := ⟨by decide, by decide⟩

theorem oneFile_fits : ¬ TooSmall oneFile ⟨oneFile.opened, 0⟩ (plainFiles, List.replicate 60 0) := by
  rintro ⟨e, he, hlt⟩
  have hlen : ∀ e ∈ (oneFile.entries plainFiles oneFile.listing).head?, e.length ≤ 60 := by decide
  exact absurd (hlen e he) (Nat.not_le.2 (by simpa using hlt))

theorem fsdirread_delivers_oneFile : Delivers oneFile ⟨oneFile.opened, 0⟩ [(plainFiles, List.replicate 60 0)] :=
  (fsdirread_delivers oneFile_short _).1.2 fun _ _ => ⟨oneFile_fits, trivial⟩

/-- A read that is too small gives nothing, as if there were no more. -/
theorem not_fsdirread_delivers : ¬ ∀ (d : OpenDir) (as : List (Files × Bytes)), Delivers d ⟨d.opened, 0⟩ as := by
  intro hall
  obtain ⟨r, s', hread, hdel, -⟩ := hall oneFile [(plainFiles, List.replicate 10 0)]
  obtain ⟨r', s'', hread', -, hfill⟩ := read_spec oneFile_short (good_opened oneFile) (plainFiles, List.replicate 10 0)
  cases hread.symm.trans hread'
  refine (delivered_iff oneFile_short (good_opened oneFile) hfill).1 hdel ?_
  have hsmall : ∃ e ∈ (oneFile.entries plainFiles oneFile.listing).head?, 10 < e.length := by decide
  exact hsmall

end Node9.Devfs
