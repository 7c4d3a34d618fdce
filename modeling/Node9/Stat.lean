import Node9.ConvDir

/-!
# Stat objects (`fs/os/lib/kernel.lua`)

A Lua table is the values of its fields, and `nil` is the value of every other name: so is the `qid` inside a stat
object, and so are the variables of the program. What comes from C is a number if it has 32 bits or fewer, else a
boxed integer.

`s_unpack` fills an object, `wstat` and `fwstat` make a `Dir` of it. In both, a field that is read under another name
than it was stored is `nil`, and what is `nil` in an initializer stays zero.
-/

namespace Node9.Stat
open Buf

/-- The names of fields and variables that are read. -/
inductive Name
  | name | uid | gid | muid | path | vers | qtype | mode | atime | mtime | length | dtype | dev
  | s_name | s_uid | s_suid | s_gid | s_muid
deriving DecidableEq

inductive Val
  | nil
  | str (s : CStr)
  | num (n : Int)
  | u64 (x : UInt64)
  | i64 (x : Int64)
deriving DecidableEq

abbrev Table := Name → Val

def Table.set (t : Table) (k : Name) (v : Val) : Table := fun k' => if k' = k then v else t k'

/-- A stat object: its own fields, and those of its `qid`. -/
structure Sdir where
  fields : Table
  qid : Table

/-- `stat.new(...)`; with an argument all numbers are -1. -/
def new (arg : Bool) : Sdir :=
  let n : Int := if arg then -1 else 0
  { fields := fun
      | .name | .uid | .gid | .muid => .str .empty
      | .mode | .atime | .mtime | .dtype | .dev => .num n
      | .length => .i64 (Int64.ofInt n)
      | _ => .nil
    qid := fun
      | .path => .u64 (UInt64.ofInt n)
      | .vers | .qtype => .num n
      | _ => .nil }

/-- `s_unpack(sdir, kdir)`, of a `Dir` whose strings are all there. -/
def s_unpack (sdir : Sdir) (kdir : Dir CStr) : Sdir :=
  { fields := sdir.fields
      |>.set .name (.str kdir.name)
      |>.set .uid (.str kdir.uid)
      |>.set .gid (.str kdir.gid)
      |>.set .muid (.str kdir.muid)
      |>.set .mode (.num kdir.mode.toNat)
      |>.set .atime (.num kdir.atime.toNat)
      |>.set .mtime (.num kdir.mtime.toNat)
      |>.set .length (.i64 kdir.length)
      |>.set .dtype (.num kdir.type.toNat)
      |>.set .dev (.num kdir.dev.toNat)
    qid := sdir.qid
      |>.set .path (.u64 kdir.qid.path)
      |>.set .vers (.num kdir.qid.vers.toNat)
      |>.set .qtype (.num kdir.qid.type.toNat) }

/-- An integer field of a C struct: zero if there is nothing for it. -/
def Val.toUInt64 : Val → Option UInt64
  | nil => some 0
  | str _ => none
  | num n => some (UInt64.ofInt n)
  | u64 x => some x
  | i64 x => some x.toUInt64

def Val.toUInt32 (v : Val) : Option UInt32 := v.toUInt64.map UInt64.toUInt32
def Val.toUInt8 (v : Val) : Option UInt8 := v.toUInt64.map UInt64.toUInt8

/-- `mkcstr(s)` -/
def mkcstr : Val → Option Val
  | .str s => some (.str s)
  | _ => none

/-- A pointer field: nil if there is nothing for it. -/
def Val.toPtr : Val → Option CharPtr
  | nil => some none
  | str s => some (some s)
  | _ => none

/-- The `Dir` of `wstat` and of `fwstat`, which say the same. `none` is an error of Lua. -/
def kdir (sdir : Sdir) : Option (Dir CharPtr) := do
  let locals : Table := fun _ => .nil
  let locals := locals.set .s_name (← mkcstr (sdir.fields .name))
  let locals := locals.set .s_uid (← mkcstr (sdir.fields .uid))
  let locals := locals.set .s_gid (← mkcstr (sdir.fields .gid))
  let locals := locals.set .s_muid (← mkcstr (sdir.fields .muid))
  let name ← (locals .s_name).toPtr
  let uid ← (locals .s_suid).toPtr
  let gid ← (locals .s_gid).toPtr
  let muid ← (locals .s_muid).toPtr
  let mode ← (sdir.fields .mode).toUInt32
  let mtime ← (sdir.fields .mtime).toUInt32
  let atime ← (sdir.fields .atime).toUInt32
  let path ← (sdir.fields .path).toUInt64
  let vers ← (sdir.fields .vers).toUInt32
  let type ← (sdir.fields .qtype).toUInt8
  let length ← (sdir.fields .length).toUInt64
  let dtype ← (sdir.fields .dtype).toUInt32
  let dev ← (sdir.fields .dev).toUInt32
  pure {
    name, uid, gid, muid, mode, mtime, atime, qid := { path, vers, type }, length := length.toInt64, type :=
      dtype, dev }

/-- The request of `wstat(path, sdir)`. -/
def wstat (path : CStr) (sdir : Sdir) : Option (CStr × Dir CharPtr) := (kdir sdir).map fun d => (path, d)

/-- The request of `fwstat(fd, sdir)`. -/
def fwstat (fd : Int) (sdir : Sdir) : Option (Int × Dir CharPtr) := (kdir sdir).map fun d => (fd, d)

theorem toUInt64_natCast (n : Nat) : (Val.num n).toUInt64 = some (UInt64.ofNat n) := by
  have hn : ((n : Int) % 2 ^ 64).toNat = n % 2 ^ 64 := by omega
  rw [Val.toUInt64, UInt64.ofInt, hn]
  exact congrArg some UInt64.ofNat_mod_size

theorem toUInt32_num (x : UInt32) : (Val.num x.toNat).toUInt32 = some x := by
  rw [Val.toUInt32, toUInt64_natCast, Option.map_some]
  exact congrArg some (by simp)

/-- What is made of an object that was filled: all but the uid and the qid. -/
def returned (d : Dir CStr) : Dir CharPtr := { d.map some with uid := none, qid := ⟨0, 0, 0⟩ }

theorem kdir_s_unpack (arg : Bool) (d : Dir CStr) : kdir (s_unpack (new arg) d) = some (returned d) := by
  have hmode := toUInt32_num d.mode
  have hatime := toUInt32_num d.atime
  have hmtime := toUInt32_num d.mtime
  have htype := toUInt32_num d.type
  have hdev := toUInt32_num d.dev
  simp only [kdir, s_unpack, Table.set, new, mkcstr, Val.toPtr, reduceCtorEq, if_true, if_false, hmode, hatime, hmtime,
    htype, hdev, Option.bind_eq_bind, Option.bind_some]
  simp [Val.toUInt64, Val.toUInt32, Val.toUInt8, returned, Dir.map]

/-- No stat object gives its `Dir` back: `uid` is nil and `qid` zero. With nil as the empty string, what is given back
is the same only if these were so. -/
theorem round_trip (arg : Bool) (d : Dir CStr) (path : CStr) (fd : Int) :
    wstat path (s_unpack (new arg) d) ≠ some (path, d.map some) ∧
      fwstat fd (s_unpack (new arg) d) ≠ some (fd, d.map some) ∧
      ((wstat path (s_unpack (new arg) d)).map (fun r => r.2.map CharPtr.str) = some d ↔
        d.uid = .empty ∧ d.qid = ⟨0, 0, 0⟩) ∧
      ((fwstat fd (s_unpack (new arg) d)).map (fun r => r.2.map CharPtr.str) = some d ↔
        d.uid = .empty ∧ d.qid = ⟨0, 0, 0⟩) := by
  have hne : returned d ≠ d.map some := fun h => by cases congrArg Dir.uid h
  have hstr : (returned d).map CharPtr.str = d ↔ d.uid = .empty ∧ d.qid = ⟨0, 0, 0⟩ := by
    obtain ⟨type, dev, qid, mode, atime, mtime, length, name, uid, gid, muid⟩ := d
    simp only [returned, Dir.map, CharPtr.str, Option.getD_some, Option.getD_none, Dir.mk.injEq, true_and, and_true]
    constructor
    · rintro ⟨hq, hu⟩
      exact ⟨hu.symm, hq.symm⟩
    · rintro ⟨hu, hq⟩
      exact ⟨hq.symm, hu.symm⟩
  rw [wstat, fwstat, kdir_s_unpack, Option.map_some, Option.map_some]
  refine ⟨fun h => hne (Prod.mk.inj (Option.some.inj h)).2, fun h => hne (Prod.mk.inj (Option.some.inj h)).2, ?_, ?_⟩
  · rw [Option.map_some, Option.some_inj]
    exact hstr
  · rw [Option.map_some, Option.some_inj]
    exact hstr

/-- An entry without strings, of the file whose number is 1. -/
theorem round_trip_lost : ¬ ∀ (d : Dir CStr) (path : CStr), wstat path (s_unpack (new false) d) = some (path,
    d.map some) := by
  intro h
  have := h ⟨0, 0, ⟨1, 0, 0⟩, 0, 0, 0, 0, .empty, .empty, .empty, .empty⟩ .empty
  revert this
  decide

end Node9.Stat
