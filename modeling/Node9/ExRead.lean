import Node9.ConvS2M
import Node9.Lib.Steps

/-!
# The size of an export request and the count that it may read (`exportfs.c`)

`exportproc` allocates the next request, with a buffer of `bsize` bytes, before it waits for the message
that goes into it; `Exversion` sets `fs->msize` when a slave gets to it, which may be later; `Exread` tests
the count against `fs->msize`, not against `q->bsize`, in unsigned arithmetic.

`Exread` holds no lock on the fid. What it does up to its loop is one step of a slave, and in every pass the
look at `f->offset` and the store after the read of the device are one each, so that another slave may move
`f->offset` in between. The table has the number of a `Fid`, which a slave keeps when the table changes.

`reads` records, for every pass, the count that it lets the device place after the header and the size of the
request's buffer. What the other messages do to the fids is left open.
-/

namespace Node9.ExRead
open Buf Steps

def MAXFDATA : Int32 := 8192
def MAXRPCDEF : UInt32 := 24 + 8192
def MAXRPCMAX : UInt32 := 24 + 64 * 1024
/-- `"9P2000"` -/
def VERSION9P : Bytes := [57, 80, 50, 48, 48, 48]
def OREAD : UInt16 := 0
def ORDWR : UInt16 := 2

def Enofid : String := "no such fid"
def Emode : String := "open/create -- unknown mode"
def Eaccess : String := "read/write -- not open in suitable mode"
def Ecount : String := "read/write -- count too big"
def Enegoff : String := "negative i/o offset"
def Eseekdir : String := "can't seek on a directory"

/-- `strcmp(a, b) <= 0`. -/
def strcmpLe : Bytes → Bytes → Bool
  | [], _ => true
  | _ :: _, [] => false
  | a :: as, b :: bs => if a = b then strcmpLe as bs else a < b

/-- `r->msize`, over an `fs->io` with `iounit`. -/
def replyMsize (iounit tmsize : UInt32) : UInt32 :=
  let r := if tmsize > MAXRPCMAX then MAXRPCMAX else tmsize
  if iounit ≠ 0 ∧ iounit.toInt32 > 64 ∧ iounit < r then iounit else r

/-- `Exversion`: the reply's `msize` and whether its version is ours (else it is "unknown"), and
`fs->msize` afterwards. -/
def Exversion (iounit msize tmsize : UInt32) (version : CStr) : Except String (UInt32 × Bool) × UInt32 :=
  let r := replyMsize iounit tmsize
  if r < 64 then (.error "message size too small", msize)
  else
    -- cut at the first '.'
    let v := version.bytes.takeWhile (· ≠ 46)
    if v.take 2 = VERSION9P.take 2 ∧ strcmpLe VERSION9P v then (.ok (r, true), r)
    else (.ok (r, false), msize)

structure Fid where
  /-- `c->flag & COPEN` -/
  copen : Bool
  mode : UInt16
  /-- `c->qid.type & QTDIR` -/
  dir : Bool
  offset : Int64

/-- `Exread` up to its loop: the fid afterwards. The test `t->count < 0` never holds, and `fs->msize-IOHDRSZ` is
compared as unsigned. -/
def Exread (msize : UInt32) (f : Option Fid) (offset : Int64) (count : UInt32) : Except String Fid :=
  match f with
  | none => .error Enofid
  | some f =>
    if ¬ f.copen then .error Emode
    else if f.mode ≠ OREAD ∧ f.mode ≠ ORDWR then .error Eaccess
    else if count > msize - 24 then .error Ecount
    else if offset < 0 then .error Enegoff
    else if f.dir ∧ offset ≠ f.offset ∧ offset ≠ 0 then .error Eseekdir
    else .ok (if f.dir ∧ offset ≠ f.offset then { f with offset := 0 } else f)

/-- What a pass of the `for(;;)` asks the device for, with `o` in `f->offset`: `off`, `n` and `seek`. -/
def pass (dir : Bool) (o offset : Int64) (count : UInt32) : Int64 × UInt32 × Bool :=
  if dir && o != offset then
    let n := (offset - o).toInt32
    (o, (if n > MAXFDATA then MAXFDATA else n).toUInt32, true)
  else (offset, count, false)

/-! ### The reader and its slaves -/

structure Req where
  body : Body
  bsize : Nat

/-- A slave in the loop of `Exread`. -/
structure Slave where
  /-- `f`, for which it has a reference -/
  fid : Nat
  dir : Bool
  offset : Int64
  count : UInt32
  bsize : Nat
  /-- `off` and `seek`, while the device reads -/
  reading : Option (Int64 × Bool)

structure St where
  /-- `fs->msize`, 0 before the first `Tversion` -/
  msize : UInt32
  /-- `bsize` of the request that `exportproc` has allocated and is reading into -/
  reader : Option Nat
  /-- received and not yet executed; the slaves may get to them in any order -/
  work : List Req
  slaves : List Slave
  /-- the table -/
  fids : UInt32 → Option Nat
  fid : Nat → Fid
  reads : List (UInt32 × Nat)

def init : St := ⟨0, none, [], [], fun _ => none, fun _ => ⟨false, 0, false, 0⟩, []⟩

inductive Op
  /-- `exportproc` allocates the next request -/
  | alloc
  /-- the message comes in: `exreadmsg` takes no more than `bsize` bytes -/
  | recv (m : Message)
  /-- a slave takes the `i`-th request -/
  | exec (i : Nat)
  /-- the slave starts a pass of its loop -/
  | pass (j : Nat)
  /-- the device has read `n` bytes, or raised an error -/
  | ret (j : Nat) (n : Option Int32)
  /-- one of the other handlers does something to the fids -/
  | other (fids : UInt32 → Option Nat) (fid : Nat → Fid)

def execReq (iounit : UInt32) (q : Req) (s : St) : St :=
  match q.body with
  | .Tversion tmsize version => { s with msize := (Exversion iounit s.msize tmsize version).2 }
  | .Tread fid offset count =>
    match s.fids fid with
    | none => s
    | some f =>
      match Exread s.msize (some (s.fid f)) offset count with
      | .error _ => s
      | .ok fid =>
        { s with
          fid := Function.update s.fid f fid
          slaves := s.slaves ++ [⟨f, fid.dir, offset, count, q.bsize, none⟩] }
  | _ => s

def step (iounit : UInt32) (s : St) : Op → Option St
  | .alloc =>
    match s.reader with
    | some _ => none
    | none => some { s with reader := some (if s.msize = 0 then MAXRPCDEF else s.msize).toNat }
  | .recv m =>
    match s.reader with
    | none => none
    | some bsize =>
      if m.size ≤ bsize then some { s with reader := none, work := s.work ++ [⟨m.body, bsize⟩] } else none
  | .exec i =>
    match s.work[i]? with
    | none => none
    | some q => some (execReq iounit q { s with work := s.work.eraseIdx i })
  | .pass j =>
    match s.slaves[j]? with
    | some ⟨f, dir, offset, count, bsize, none⟩ =>
      let (off, n, seek) := pass dir (s.fid f).offset offset count
      some { s with
        slaves := s.slaves.set j ⟨f, dir, offset, count, bsize, some (off, seek)⟩
        reads := s.reads ++ [(n, bsize)] }
    | _ => none
  | .ret j n =>
    match s.slaves[j]? with
    | some ⟨f, dir, offset, count, bsize, some (off, seek)⟩ =>
      match n with
      | none => some { s with slaves := s.slaves.eraseIdx j }
      | some n =>
        some { s with
          fid := Function.update s.fid f { s.fid f with offset := off + n.toInt64 }
          slaves :=
            if n = 0 ∨ ¬ seek then s.slaves.eraseIdx j else s.slaves.set j ⟨f, dir, offset, count, bsize, none⟩ }
    | _ => none
  | .other fids fid => some { s with fids, fid }

/-! ### What `Exread` lets through -/

section
variable {msize count : UInt32} {f f' : Fid} {offset : Int64}

theorem pass_once {dir : Bool} {o : Int64} (h : dir = true → o = offset) : pass dir o offset count = (offset, count, false) := by
  have hseek : (dir && o != offset) = false := by
    cases dir with
    | false => rfl
    | true => simp [h rfl]
  rw [pass, hseek]
  rfl

/-- The tests before the loop leave no directory to seek in. -/
theorem Exread_ok (h : Exread msize (some f) offset count = .ok f') :
    f'.dir = f.dir ∧ (f'.dir = true → f'.offset = offset) ∧ ¬ count > msize - 24 := by
  unfold Exread at h
  dsimp only at h
  split_ifs at h with hopen hmode hcount hneg hseek hoff
  · cases h
    refine ⟨rfl, fun _ => ?_, hcount⟩
    by_contra h0
    exact hseek ⟨hoff.1, hoff.2, fun hz => h0 hz.symm⟩
  · cases h
    refine ⟨rfl, fun hd => ?_, hcount⟩
    by_contra hne
    exact hoff ⟨hd, fun heq => hne heq.symm⟩

/-- A plain file, open for reading. -/
def plain : Fid := ⟨true, OREAD, false, 0⟩

theorem Exread_plain (h : ¬ count > msize - 24) : Exread msize (some plain) 0 count = .ok plain := by
  simp [Exread, plain, h]

end

/-- For every fid and every message, what `Exread` asks for fits after the header, if nobody moves `f->offset`. -/
def ReadsFit (msize : UInt32) (bsize : Nat) : Prop :=
  ∀ f offset count f', Exread msize (some f) offset count = .ok f' →
    IOHDRSZ + (pass f'.dir f'.offset offset count).2.1.toNat ≤ bsize

theorem toNat_sub_hdr {msize : UInt32} (h : 64 ≤ msize.toNat) : (msize - 24).toNat = msize.toNat - 24 := by
  have hle : (24 : UInt32) ≤ msize := by
    rw [UInt32.le_iff_toNat_le]
    show 24 ≤ msize.toNat
    omega
  rw [UInt32.toNat_sub_of_le _ _ hle]
  rfl

/-- The test of the count is right for a buffer of `bsize` bytes exactly if a `Tversion` has set the
message size and to no more than `bsize`. -/
theorem readsFit_iff {msize : UInt32} {bsize : Nat} (hm : msize = 0 ∨ 64 ≤ msize.toNat) (hb : bsize < 2 ^ 31) :
    ReadsFit msize bsize ↔ msize ≠ 0 ∧ msize.toNat ≤ bsize := by
  constructor
  · intro h
    -- the largest count that passes, on a plain file
    have hmax := h plain 0 (msize - 24) _ (Exread_plain (by exact fun hgt => absurd hgt (by simp)))
    have hpass : pass plain.dir plain.offset 0 (msize - 24) = (0, msize - 24, false) := pass_once fun _ => rfl
    rw [hpass] at hmax
    rcases hm with rfl | hm
    · refine absurd hmax ?_
      show ¬ 24 + 4294967272 ≤ bsize
      omega
    rw [toNat_sub_hdr hm] at hmax
    refine ⟨?_, ?_⟩
    · rintro rfl
      exact absurd hm (by decide)
    · simp only [IOHDRSZ] at hmax
      omega
  · rintro ⟨h0, hle⟩ f offset count f' hrun
    obtain ⟨-, hoff, hcount⟩ := Exread_ok hrun
    rw [pass_once hoff]
    have hm := hm.resolve_left h0
    have hcount : count.toNat ≤ (msize - 24).toNat := by
      rw [← UInt32.le_iff_toNat_le]
      exact UInt32.not_lt.1 hcount
    rw [toNat_sub_hdr hm] at hcount
    simp only [IOHDRSZ]
    omega

/-- Everything that `Exread` let a device place fits after the header in the buffer it was for. -/
def Fits (s : St) : Prop := ∀ r ∈ s.reads, IOHDRSZ + r.1.toNat ≤ r.2

/-- The message size is set, and is not above the size that `q` was allocated with. -/
def Sized (s : St) (q : Req) : Prop := s.msize ≠ 0 ∧ s.msize.toNat ≤ q.bsize

/-- If the step takes a `Tread`, the request is `Sized`. -/
def SizedRead (s : St) : Op → Prop
  | .exec i => ∀ q fid offset count, s.work[i]? = some q → q.body = .Tread fid offset count → Sized s q
  | _ => True

/-- A pass over a directory finds `f->offset` where the tests have left it. -/
def Unmoved (s : St) : Op → Prop
  | .pass j => ∀ sl, s.slaves[j]? = some sl → sl.dir = true → (s.fid sl.fid).offset = sl.offset
  | _ => True

structure Inv (s : St) : Prop where
  msize : s.msize = 0 ∨ 64 ≤ s.msize.toNat
  msize_le : s.msize.toNat ≤ MAXRPCMAX.toNat
  reader : ∀ b ∈ s.reader, b ≤ MAXRPCMAX.toNat
  work : ∀ q ∈ s.work, q.bsize ≤ MAXRPCMAX.toNat

theorem inv_init : Inv init where
  msize := .inl rfl
  msize_le := zero_le
  reader _ h := nomatch h
  work _ h := nomatch h

theorem replyMsize_le (iounit tmsize : UInt32) : (replyMsize iounit tmsize).toNat ≤ MAXRPCMAX.toNat := by
  have hcap : (if tmsize > MAXRPCMAX then MAXRPCMAX else tmsize).toNat ≤ MAXRPCMAX.toNat := by
    split_ifs with h
    · exact le_refl _
    · exact UInt32.le_iff_toNat_le.1 (UInt32.not_lt.1 h)
  unfold replyMsize
  generalize (if tmsize > MAXRPCMAX then MAXRPCMAX else tmsize) = r at hcap
  simp only
  split_ifs with h
  · have := UInt32.lt_iff_toNat_lt.1 h.2.2
    omega
  · exact hcap

/-- `Exversion` leaves `fs->msize` alone or sets it between 64 and `MAXRPCMAX`. -/
theorem Exversion_msize (iounit msize tmsize : UInt32) (version : CStr) :
    (Exversion iounit msize tmsize version).2 = msize ∨
      64 ≤ (Exversion iounit msize tmsize version).2.toNat ∧
        (Exversion iounit msize tmsize version).2.toNat ≤ MAXRPCMAX.toNat := by
  simp only [Exversion]
  split_ifs with h64 hv
  · exact .inl rfl
  · exact .inr ⟨UInt32.le_iff_toNat_le.1 (UInt32.not_lt.1 h64), replyMsize_le iounit tmsize⟩
  · exact .inl rfl

variable {iounit : UInt32} {s s' : St} {op : Op} {q : Req}

theorem reads_execReq : (execReq iounit q s).reads = s.reads := by
  unfold execReq
  repeat' split
  all_goals rfl

theorem Inv.execReq (h : Inv s) : Inv (execReq iounit q s) := by
  unfold ExRead.execReq
  split
  · rename_i tmsize version _
    refine ⟨?_, ?_, h.reader, h.work⟩
    · rcases Exversion_msize iounit s.msize tmsize version with he | he
      · rw [he]; exact h.msize
      · exact .inr he.1
    · rcases Exversion_msize iounit s.msize tmsize version with he | he
      · rw [he]; exact h.msize_le
      · exact he.2
  · repeat' split
    all_goals exact ⟨h.msize, h.msize_le, h.reader, h.work⟩
  · exact h

theorem Inv.step (h : Inv s) (hs : step iounit s op = some s') : Inv s' := by
  cases op with
  | alloc =>
    simp only [ExRead.step] at hs
    split at hs <;> cases hs
    refine ⟨h.msize, h.msize_le, fun b hb => ?_, h.work⟩
    cases hb
    split_ifs
    · decide
    · exact h.msize_le
  | recv m =>
    simp only [ExRead.step] at hs
    split at hs
    · cases hs
    rename_i bsize hr
    split at hs <;> cases hs
    refine ⟨h.msize, h.msize_le, fun b hb => (nomatch hb), fun q hq => ?_⟩
    rcases List.mem_append.1 hq with hq | hq
    · exact h.work q hq
    · obtain rfl := List.mem_singleton.1 hq
      exact h.reader bsize hr
  | exec i =>
    simp only [ExRead.step] at hs
    split at hs <;> cases hs
    have hdeq : Inv { s with work := s.work.eraseIdx i } :=
      ⟨h.msize, h.msize_le, h.reader, fun q hq => h.work q (List.mem_of_mem_eraseIdx hq)⟩
    exact hdeq.execReq
  | pass j =>
    simp only [ExRead.step] at hs
    split at hs <;> cases hs
    exact ⟨h.msize, h.msize_le, h.reader, h.work⟩
  | ret j n =>
    simp only [ExRead.step] at hs
    split at hs
    · split at hs <;> cases hs
      all_goals exact ⟨h.msize, h.msize_le, h.reader, h.work⟩
    · cases hs
  | other fids fid =>
    cases hs
    exact ⟨h.msize, h.msize_le, h.reader, h.work⟩

/-- Every slave in the loop has a count that fits. -/
def Counted (s : St) : Prop := ∀ sl ∈ s.slaves, IOHDRSZ + sl.count.toNat ≤ sl.bsize

/-- With the size of the message set and not above `bsize`, the tests of `Exread` are good for every slave. -/
theorem Counted.execReq (h : Counted s) (hinv : Inv s) (hb : q.bsize < 2 ^ 31)
    (hk : ∀ fid offset count, q.body = .Tread fid offset count → Sized s q) : Counted (execReq iounit q s) := by
  unfold ExRead.execReq
  split
  · exact h
  · rename_i fid offset count hbody
    split
    · exact h
    split
    · exact h
    rename_i f _ fid' hrun
    have hfit := (readsFit_iff hinv.msize hb).2 (hk fid offset count hbody) _ _ _ _ hrun
    rw [pass_once (Exread_ok hrun).2.1] at hfit
    intro sl hsl
    rcases List.mem_append.1 hsl with hsl | hsl
    · exact h sl hsl
    · obtain rfl := List.mem_singleton.1 hsl
      exact hfit
  · exact h

theorem Fits.step (h : Inv s ∧ Fits s ∧ Counted s) (hk : SizedRead s op ∧ Unmoved s op)
    (hs : step iounit s op = some s') : Inv s' ∧ Fits s' ∧ Counted s' := by
  obtain ⟨hinv, hfits, hcount⟩ := h
  refine ⟨hinv.step hs, ?_⟩
  cases op with
  | alloc =>
    simp only [ExRead.step] at hs
    split at hs <;> cases hs
    exact ⟨hfits, hcount⟩
  | recv m =>
    simp only [ExRead.step] at hs
    split at hs
    · cases hs
    · split at hs <;> cases hs
      exact ⟨hfits, hcount⟩
  | exec i =>
    simp only [ExRead.step] at hs
    split at hs <;> cases hs
    rename_i q hq
    have hb : q.bsize < 2 ^ 31 := lt_of_le_of_lt (hinv.work q (List.mem_of_getElem? hq)) (by decide)
    have hdeq : Inv { s with work := s.work.eraseIdx i } :=
      ⟨hinv.msize, hinv.msize_le, hinv.reader, fun q hq => hinv.work q (List.mem_of_mem_eraseIdx hq)⟩
    refine ⟨?_, Counted.execReq (s := { s with work := s.work.eraseIdx i }) hcount hdeq hb
      fun fid offset count hbody => hk.1 q fid offset count hq hbody⟩
    intro r hr
    rw [reads_execReq] at hr
    exact hfits r hr
  | pass j =>
    simp only [ExRead.step] at hs
    split at hs
    · rename_i f dir offset count bsize hsl
      have hfit : IOHDRSZ + count.toNat ≤ bsize := hcount _ (List.mem_of_getElem? hsl)
      rw [pass_once (hk.2 _ hsl)] at hs
      cases hs
      refine ⟨fun r hr => ?_, fun sl hin => ?_⟩
      · rcases List.mem_append.1 hr with hr | hr
        · exact hfits r hr
        · obtain rfl := List.mem_singleton.1 hr
          exact hfit
      · rcases List.mem_or_eq_of_mem_set hin with hin | rfl
        · exact hcount sl hin
        · exact hfit
    · cases hs
  | ret j n =>
    simp only [ExRead.step] at hs
    split at hs
    · rename_i f dir offset count bsize off seek hsl
      have hfit : IOHDRSZ + count.toNat ≤ bsize := hcount _ (List.mem_of_getElem? hsl)
      have hgone : ∀ sl ∈ s.slaves.eraseIdx j, IOHDRSZ + sl.count.toNat ≤ sl.bsize :=
        fun sl hin => hcount sl (List.mem_of_mem_eraseIdx hin)
      split at hs <;> cases hs
      · exact ⟨hfits, hgone⟩
      · refine ⟨hfits, ?_⟩
        unfold Counted
        dsimp only
        split_ifs
        · exact hgone
        · intro sl hin
          rcases List.mem_or_eq_of_mem_set hin with hin | rfl
          · exact hcount sl hin
          · exact hfit
    · cases hs
  | other fids fid =>
    cases hs
    exact ⟨hfits, hcount⟩

/-- In a run where every `Tread` is tested with the message size set and not above the request's `bsize`, and no
other slave moves the `f->offset` of a directory under it, everything read fits; and in every state of every run the
first is, for each request, the condition under which the tests let through only what fits. -/
theorem exread_fits_of_sized (iounit : UInt32) (ops : List Op) :
    (Along (step iounit) (fun s op => SizedRead s op ∧ Unmoved s op) init ops → Always (step iounit) Fits init ops) ∧
      Always (step iounit) (fun s => ∀ q ∈ s.work, (ReadsFit s.msize q.bsize ↔ Sized s q)) init ops := by
  constructor
  · intro h
    have hinit : Inv init ∧ Fits init ∧ Counted init := ⟨inv_init, (fun _ h => nomatch h), fun _ h => nomatch h⟩
    exact (h.always (fun _ _ _ h hk hs => Fits.step h hk hs) hinit).mono fun _ h => h.2.1
  · refine (always_of_step (fun _ _ _ h hs => h.step hs) inv_init).mono fun s h q hq => ?_
    exact readsFit_iff h.msize (Nat.lt_of_le_of_lt (h.work q hq) (by decide))

/-- A directory, open for reading, of which 8000 bytes have been read. -/
def openDir : Fid := ⟨true, OREAD, true, 8000⟩

/-- Two slaves read it: the second goes back to its start between the tests and the loop of the first, which then
asks for 8000 bytes into a buffer of 1024. -/
def moved : List Op :=
  [.alloc, .recv ⟨0, .Tversion 1024 ⟨[57, 80, 50, 48, 48, 48], by decide⟩⟩, .exec 0,
    .alloc, .recv ⟨1, .Topen 1 0⟩, .exec 0, .other (fun _ => some 0) fun _ => openDir,
    .alloc, .recv ⟨2, .Tread 1 8000 1000⟩, .exec 0, .alloc, .recv ⟨3, .Tread 1 0 1000⟩, .exec 0, .pass 0]

/-- Before any `Tversion` a file is opened, and 10000 bytes are read into a buffer of 8216; and with every `Tread`
`Sized` the run `moved` reads past its buffer. -/
theorem exread_before_version_overruns :
    (¬ ∀ iounit ops, Always (step iounit) Fits init ops) ∧
      ¬ ∀ iounit ops, Along (step iounit) SizedRead init ops → Always (step iounit) Fits init ops := by
  constructor
  · intro h
    have hfits := (h 0 [.alloc, .recv ⟨1, .Topen 1 0⟩, .exec 0, .other (fun _ => some 0) fun _ => plain,
      .alloc, .recv ⟨2, .Tread 1 0 10000⟩, .exec 0, .pass 0]).last rfl
    exact absurd (hfits (10000, 8216) (List.mem_singleton.2 rfl)) (by decide)
  · intro h
    have hsized : Along (step 0) SizedRead init moved := by
      refine .cons trivial rfl (.cons trivial rfl (.cons ?_ rfl (.cons trivial rfl (.cons trivial rfl
        (.cons ?_ rfl (.cons trivial rfl (.cons trivial rfl (.cons trivial rfl (.cons ?_ rfl (.cons trivial rfl
        (.cons trivial rfl (.cons ?_ rfl (.cons trivial rfl trivial)))))))))))))
      all_goals
        intro q fid offset count hq hbody
        cases hq
      · cases hbody
      · cases hbody
      · exact ⟨by decide, by decide⟩
      · exact ⟨by decide, by decide⟩
    have hfits := (h 0 moved hsized).last rfl
    exact absurd (hfits (8000, 1024) (List.mem_singleton.2 rfl)) (by decide)

end Node9.ExRead
