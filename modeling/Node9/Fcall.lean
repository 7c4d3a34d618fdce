import Node9.Lib.Buf

/-!
# 9P messages in memory (`fcall.h`)

`Fcall S D` is the message record: a `char*` is an `S` and a pointer to counted data is a `D`. The
encoder reads `Fcall CharPtr Mem` (a string or nil, and the bytes in memory from the data pointer on);
the decoder fills `Fcall Ptr Ptr`, whose pointers are offsets into the buffer that it decodes.
`wname` and `wqid` are the arrays and whatever follows them in memory: `sizeS2M` reads `wname[i]` for
every `i < nwname`, also past `MAXWELEM`.

`Fcall.msg` is what a message says: its type, its tag and the fields that its type carries.
-/

namespace Node9
open Buf

def MAXWELEM : Nat := 16
def BIT8SZ : Nat := 1
def BIT16SZ : Nat := 2
def BIT32SZ : Nat := 4
def BIT64SZ : Nat := 8
def QIDSZ : Nat := BIT8SZ + BIT32SZ + BIT64SZ
def IOHDRSZ : Nat := 24

attribute [simp] MAXWELEM BIT8SZ BIT16SZ BIT32SZ BIT64SZ QIDSZ IOHDRSZ

/-- The message types with a `case` of their own; `Terror` (106) has none. -/
inductive MsgType
  | Tversion | Rversion | Tauth | Rauth | Tattach | Rattach | Rerror | Tflush | Rflush
  | Twalk | Rwalk | Topen | Ropen | Tcreate | Rcreate | Tread | Rread | Twrite | Rwrite
  | Tclunk | Rclunk | Tremove | Rremove | Tstat | Rstat | Twstat | Rwstat
deriving DecidableEq, Repr

namespace MsgType

def toByte : MsgType → UInt8
  | Tversion => 100 | Rversion => 101 | Tauth => 102 | Rauth => 103 | Tattach => 104
  | Rattach => 105 | Rerror => 107 | Tflush => 108 | Rflush => 109 | Twalk => 110
  | Rwalk => 111 | Topen => 112 | Ropen => 113 | Tcreate => 114 | Rcreate => 115
  | Tread => 116 | Rread => 117 | Twrite => 118 | Rwrite => 119 | Tclunk => 120
  | Rclunk => 121 | Tremove => 122 | Rremove => 123 | Tstat => 124 | Rstat => 125
  | Twstat => 126 | Rwstat => 127

def all : List MsgType :=
  [Tversion, Rversion, Tauth, Rauth, Tattach, Rattach, Rerror, Tflush, Rflush, Twalk, Rwalk, Topen,
   Ropen, Tcreate, Rcreate, Tread, Rread, Twrite, Rwrite, Tclunk, Rclunk, Tremove, Rremove, Tstat,
   Rstat, Twstat, Rwstat]

/-- The `case` that `switch(f->type)` takes; `none` is `default`. -/
def ofByte (b : UInt8) : Option MsgType := all.find? fun t => t.toByte == b

@[simp] theorem ofByte_toByte (t : MsgType) : ofByte t.toByte = some t := by cases t <;> decide

theorem toByte_of_ofByte {b : UInt8} {t : MsgType} (h : ofByte b = some t) : t.toByte = b := by
  have := List.find?_some h
  simpa using this

end MsgType

/-! ### Fixed-width fields -/

def pbit8 (v : UInt8) : Bytes := [v]
def pbit16 (v : UInt16) : Bytes := [v.toUInt8, (v >>> 8).toUInt8]
def pbit32 (v : UInt32) : Bytes :=
  [v.toUInt8, (v >>> 8).toUInt8, (v >>> 16).toUInt8, (v >>> 24).toUInt8]
def pbit64 (v : UInt64) : Bytes :=
  [v.toUInt8, (v >>> 8).toUInt8, (v >>> 16).toUInt8, (v >>> 24).toUInt8,
   (v >>> 32).toUInt8, (v >>> 40).toUInt8, (v >>> 48).toUInt8, (v >>> 56).toUInt8]

def gbit8 (b : Bytes) : UInt8 := b.getD 0 0
def gbit16 (b : Bytes) : UInt16 := (b.getD 0 0).toUInt16 ||| (b.getD 1 0).toUInt16 <<< 8
def gbit32 (b : Bytes) : UInt32 :=
  (b.getD 0 0).toUInt32 ||| (b.getD 1 0).toUInt32 <<< 8 ||| (b.getD 2 0).toUInt32 <<< 16 |||
    (b.getD 3 0).toUInt32 <<< 24
def gbit64 (b : Bytes) : UInt64 := (gbit32 b).toUInt64 ||| (gbit32 (b.drop 4)).toUInt64 <<< 32

@[simp] theorem length_pbit8 (v : UInt8) : (pbit8 v).length = 1 := rfl
@[simp] theorem length_pbit16 (v : UInt16) : (pbit16 v).length = 2 := rfl
@[simp] theorem length_pbit32 (v : UInt32) : (pbit32 v).length = 4 := rfl
@[simp] theorem length_pbit64 (v : UInt64) : (pbit64 v).length = 8 := rfl

theorem or_shifted {a b k m w : Nat} (ha : a < 2 ^ k) (hb : b < 2 ^ m) (hk : k + m ≤ w) :
    a ||| b <<< k % 2 ^ w = a + b * 2 ^ k := by
  have hlt : b * 2 ^ k < 2 ^ w :=
    calc b * 2 ^ k < 2 ^ m * 2 ^ k := Nat.mul_lt_mul_of_pos_right hb (Nat.two_pow_pos k)
      _ = 2 ^ (k + m) := by rw [← Nat.pow_add, add_comm]
      _ ≤ 2 ^ w := Nat.pow_le_pow_right (by decide) hk
  rw [Nat.shiftLeft_eq, Nat.mod_eq_of_lt hlt, Nat.or_comm, ← Nat.shiftLeft_eq,
    ← Nat.shiftLeft_add_eq_or_of_lt ha, Nat.shiftLeft_eq, add_comm]

theorem toNat_gbit16 (b₀ b₁ : UInt8) (t : Bytes) :
    (gbit16 (b₀ :: b₁ :: t)).toNat = b₀.toNat + b₁.toNat * 2 ^ 8 := by
  simp only [gbit16, List.getD_cons_zero, List.getD_cons_succ, UInt16.toNat_or, UInt16.toNat_shiftLeft,
    UInt8.toNat_toUInt16]
  exact or_shifted b₀.toNat_lt b₁.toNat_lt (by decide)

theorem toNat_gbit32 (b₀ b₁ b₂ b₃ : UInt8) (t : Bytes) :
    (gbit32 (b₀ :: b₁ :: b₂ :: b₃ :: t)).toNat =
      b₀.toNat + b₁.toNat * 2 ^ 8 + b₂.toNat * 2 ^ 16 + b₃.toNat * 2 ^ 24 := by
  have h₀ := b₀.toNat_lt
  have h₁ := b₁.toNat_lt
  have h₂ := b₂.toNat_lt
  simp only [gbit32, List.getD_cons_zero, List.getD_cons_succ, UInt32.toNat_or, UInt32.toNat_shiftLeft,
    UInt8.toNat_toUInt32]
  show b₀.toNat ||| b₁.toNat <<< 8 % 2 ^ 32 ||| b₂.toNat <<< 16 % 2 ^ 32 ||| b₃.toNat <<< 24 % 2 ^ 32 = _
  rw [or_shifted h₀ h₁ (by decide), or_shifted (by omega) h₂ (by decide),
    or_shifted (by omega) b₃.toNat_lt (by decide)]

@[simp] theorem gbit8_pbit8 (v : UInt8) : gbit8 (pbit8 v) = v := rfl

@[simp] theorem gbit16_pbit16 (v : UInt16) : gbit16 (pbit16 v) = v := by
  have hv := v.toNat_lt
  apply UInt16.toNat_inj.mp
  rw [pbit16, toNat_gbit16]
  simp [Nat.shiftRight_eq_div_pow]
  omega

@[simp] theorem gbit32_pbit32 (v : UInt32) : gbit32 (pbit32 v) = v := by
  have hv := v.toNat_lt
  apply UInt32.toNat_inj.mp
  rw [pbit32, toNat_gbit32]
  simp [Nat.shiftRight_eq_div_pow]
  omega

@[simp] theorem gbit64_pbit64 (v : UInt64) : gbit64 (pbit64 v) = v := by
  have hv := v.toNat_lt
  apply UInt64.toNat_inj.mp
  have hlo : (gbit32 (pbit64 v)).toNat = v.toNat % 2 ^ 32 := by
    rw [pbit64, toNat_gbit32]
    simp [Nat.shiftRight_eq_div_pow]
    omega
  have hhi : (gbit32 ((pbit64 v).drop 4)).toNat = v.toNat / 2 ^ 32 := by
    show (gbit32 [(v >>> 32).toUInt8, (v >>> 40).toUInt8, (v >>> 48).toUInt8, (v >>> 56).toUInt8]).toNat = _
    rw [toNat_gbit32]
    simp [Nat.shiftRight_eq_div_pow]
    omega
  simp only [gbit64, UInt64.toNat_or, UInt64.toNat_shiftLeft, UInt32.toNat_toUInt64]
  show (gbit32 (pbit64 v)).toNat ||| (gbit32 ((pbit64 v).drop 4)).toNat <<< 32 % 2 ^ 64 = _
  rw [or_shifted (UInt32.toNat_lt _) (UInt32.toNat_lt _) (by decide), hlo, hhi]
  omega

/-! ### The message record -/

/-- The bytes of a C string, without its terminator. -/
structure CStr where
  bytes : Bytes
  nul_free : (0 : UInt8) ∉ bytes
deriving DecidableEq

namespace CStr

def empty : CStr := ⟨[], by simp⟩

def strlen (s : CStr) : Nat := s.bytes.length

@[ext] theorem ext {s t : CStr} (h : s.bytes = t.bytes) : s = t := by
  cases s; cases t; simpa using h

end CStr

abbrev CharPtr := Option CStr
abbrev Mem := Nat → UInt8
abbrev Ptr := Option Nat

/-- `*s`, where nil counts as the empty string (as `pstring` and `stringsz` take it). -/
def CharPtr.str (s : CharPtr) : CStr := s.getD .empty

/-- The `n` bytes in memory from the pointer on. -/
def Mem.read (m : Mem) (n : Nat) : Bytes := (List.range n).map m

@[simp] theorem Mem.length_read (m : Mem) (n : Nat) : (m.read n).length = n := by simp [Mem.read]

structure Qid where
  path : UInt64
  vers : UInt32
  type : UInt8
deriving DecidableEq, Repr, Inhabited

structure Fcall (S D : Type) where
  type : UInt8
  fid : UInt32
  tag : UInt16
  msize : UInt32
  version : S
  oldtag : UInt16
  ename : S
  qid : Qid
  iounit : UInt32
  aqid : Qid
  afid : UInt32
  uname : S
  aname : S
  perm : UInt32
  name : S
  mode : UInt8
  newfid : UInt32
  nwname : UInt16
  wname : Nat → S
  nwqid : UInt16
  wqid : Nat → Qid
  offset : Int64
  count : UInt32
  data : D
  nstat : UInt16
  stat : D
deriving Inhabited

/-! ### What a message says -/

inductive Body
  | Tversion (msize : UInt32) (version : CStr)
  | Rversion (msize : UInt32) (version : CStr)
  | Tauth (afid : UInt32) (uname aname : CStr)
  | Rauth (aqid : Qid)
  | Tattach (fid afid : UInt32) (uname aname : CStr)
  | Rattach (qid : Qid)
  | Rerror (ename : CStr)
  | Tflush (oldtag : UInt16)
  | Rflush
  | Twalk (fid newfid : UInt32) (wname : List CStr)
  | Rwalk (wqid : List Qid)
  | Topen (fid : UInt32) (mode : UInt8)
  | Ropen (qid : Qid) (iounit : UInt32)
  | Tcreate (fid : UInt32) (name : CStr) (perm : UInt32) (mode : UInt8)
  | Rcreate (qid : Qid) (iounit : UInt32)
  | Tread (fid : UInt32) (offset : Int64) (count : UInt32)
  | Rread (data : Bytes)
  | Twrite (fid : UInt32) (offset : Int64) (data : Bytes)
  | Rwrite (count : UInt32)
  | Tclunk (fid : UInt32)
  | Rclunk
  | Tremove (fid : UInt32)
  | Rremove
  | Tstat (fid : UInt32)
  | Rstat (stat : Bytes)
  | Twstat (fid : UInt32) (stat : Bytes)
  | Rwstat

structure Message where
  tag : UInt16
  body : Body

namespace Fcall

/-- The fields that a message of type `t` carries. -/
def body (f : Fcall CharPtr Mem) : MsgType → Body
  | .Tversion => .Tversion f.msize f.version.str
  | .Rversion => .Rversion f.msize f.version.str
  | .Tauth => .Tauth f.afid f.uname.str f.aname.str
  | .Rauth => .Rauth f.aqid
  | .Tattach => .Tattach f.fid f.afid f.uname.str f.aname.str
  | .Rattach => .Rattach f.qid
  | .Rerror => .Rerror f.ename.str
  | .Tflush => .Tflush f.oldtag
  | .Rflush => .Rflush
  | .Twalk => .Twalk f.fid f.newfid ((List.range f.nwname.toNat).map fun i => (f.wname i).str)
  | .Rwalk => .Rwalk ((List.range f.nwqid.toNat).map f.wqid)
  | .Topen => .Topen f.fid f.mode
  | .Ropen => .Ropen f.qid f.iounit
  | .Tcreate => .Tcreate f.fid f.name.str f.perm f.mode
  | .Rcreate => .Rcreate f.qid f.iounit
  | .Tread => .Tread f.fid f.offset f.count
  | .Rread => .Rread (f.data.read f.count.toNat)
  | .Twrite => .Twrite f.fid f.offset (f.data.read f.count.toNat)
  | .Rwrite => .Rwrite f.count
  | .Tclunk => .Tclunk f.fid
  | .Rclunk => .Rclunk
  | .Tremove => .Tremove f.fid
  | .Rremove => .Rremove
  | .Tstat => .Tstat f.fid
  | .Rstat => .Rstat (f.stat.read f.nstat.toNat)
  | .Twstat => .Twstat f.fid (f.stat.read f.nstat.toNat)
  | .Rwstat => .Rwstat

/-- The type, the tag and the carried fields; `none` for a type that no `case` handles. -/
def msg (f : Fcall CharPtr Mem) : Option Message :=
  (MsgType.ofByte f.type).map fun t => ⟨f.tag, f.body t⟩

end Fcall

namespace Body

def type : Body → MsgType
  | Tversion .. => .Tversion | Rversion .. => .Rversion | Tauth .. => .Tauth | Rauth .. => .Rauth
  | Tattach .. => .Tattach | Rattach .. => .Rattach | Rerror .. => .Rerror | Tflush .. => .Tflush
  | Rflush => .Rflush | Twalk .. => .Twalk | Rwalk .. => .Rwalk | Topen .. => .Topen
  | Ropen .. => .Ropen | Tcreate .. => .Tcreate | Rcreate .. => .Rcreate | Tread .. => .Tread
  | Rread .. => .Rread | Twrite .. => .Twrite | Rwrite .. => .Rwrite | Tclunk .. => .Tclunk
  | Rclunk => .Rclunk | Tremove .. => .Tremove | Rremove => .Rremove | Tstat .. => .Tstat
  | Rstat .. => .Rstat | Twstat .. => .Twstat | Rwstat => .Rwstat

def strings : Body → List CStr
  | Tversion _ s | Rversion _ s | Rerror s | Tcreate _ s _ _ => [s]
  | Tauth _ u a | Tattach _ _ u a => [u, a]
  | Twalk _ _ w => w
  | _ => []

/-- `nwname` of a walk, `nwqid` of its answer. -/
def nelem : Body → Nat
  | Twalk _ _ w => w.length
  | Rwalk q => q.length
  | _ => 0

end Body

@[simp] theorem Fcall.type_body (f : Fcall CharPtr Mem) (t : MsgType) : (f.body t).type = t := by
  cases t <;> rfl

theorem Fcall.msg_eq_some {f : Fcall CharPtr Mem} {m : Message} (h : f.msg = some m) :
    MsgType.ofByte f.type = some m.body.type ∧ m = ⟨f.tag, f.body m.body.type⟩ := by
  obtain ⟨t, ht, rfl⟩ := Option.map_eq_some_iff.1 h
  simp [ht]

end Node9
