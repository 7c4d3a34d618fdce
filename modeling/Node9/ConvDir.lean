import Node9.ConvM2S
import Node9.ConvS2M

/-!
# Directory entries (`convD2M.c`, `convM2D.c`)

`Dir` is the record of `kern.h`; a `char*` is an `S`. The encoder writes into a buffer of `nbuf` bytes (`BufM`). The
decoder works in a memory: its buffer and the area for its strings are places in it, which may overlap, and it leaves
the strings where the pointers of the record say (`Dir.deref`).

`entry` is what a buffer says, read without a memory. The decoder finds this wherever its area is (`convM2D_eq`).
-/

namespace Node9
open Buf List
open Option hiding mem_map_of_mem

def STATFIXLEN : Nat := BIT16SZ + QIDSZ + 5 * BIT16SZ + 4 * BIT32SZ + 1 * BIT64SZ

attribute [simp] STATFIXLEN

structure Dir (S : Type) where
  type : UInt32
  dev : UInt32
  qid : Qid
  mode : UInt32
  atime : UInt32
  mtime : UInt32
  length : Int64
  name : S
  uid : S
  gid : S
  muid : S
deriving DecidableEq

namespace Dir
variable {S T : Type}

def strs (d : Dir S) : List S := [d.name, d.uid, d.gid, d.muid]

def map (f : S → T) (d : Dir S) : Dir T :=
  { d with name := f d.name, uid := f d.uid, gid := f d.gid, muid := f d.muid }

end Dir

/-- `if(sv[i]) strlen(sv[i])` -/
def nsv (s : CharPtr) : UInt32 := UInt32.ofNat s.str.strlen

def sizeD2M (d : Dir CharPtr) : UInt32 := UInt32.ofNat STATFIXLEN + (d.strs.map nsv).sum

def putStrs : List CharPtr → BufM Unit Unit
  | [] => pure ()
  | s :: sv => do
    let ns := nsv s
    chk (ns.toNat + BIT16SZ)
    emit (pbit16 ns.toUInt16)
    emit (s.str.bytes.take ns.toNat)
    putStrs sv

def putDir (d : Dir CharPtr) (nbuf : Nat) : BufM Unit UInt32 := do
  if nbuf < BIT16SZ then stop
  else
    let ss := sizeD2M d
    -- the size is there even if nothing else is
    emit (pbit16 (ss - UInt32.ofNat BIT16SZ).toUInt16)
    if ss.toNat > nbuf then pure (UInt32.ofNat BIT16SZ)
    else
      emit (pbit16 d.type.toUInt16)
      emit (pbit32 d.dev)
      emit (pbit8 d.qid.type)
      emit (pbit32 d.qid.vers)
      emit (pbit64 d.qid.path)
      emit (pbit32 d.mode)
      emit (pbit32 d.atime)
      emit (pbit32 d.mtime)
      emit (pbit64 d.length.toUInt64)
      putStrs d.strs
      let p ← here
      if ss.toNat ≠ p then stop
      else pure ss

/-- `convD2M(d, buf, nbuf)`: the value returned and the buffer afterwards, or `none` if a byte outside was written. -/
def convD2M (d : Dir CharPtr) (buf : Bytes) : Option (UInt32 × Bytes) :=
  match putDir d buf.length ⟨0, buf, ()⟩ with
  | .ok n s => some (n, s.buf)
  | .ret0 s => some (0, s.buf)
  | .fault => none

/-- The four strings from `p` on, up to the end of the buffer. -/
def statcheckStrs (buf : Bytes) : Nat → Nat → Bool
  | 0, p => p == buf.length
  | i + 1, p =>
    if p + BIT16SZ > buf.length then false
    else statcheckStrs buf i (p + (BIT16SZ + (gbit16 (buf.drop p)).toNat))

/-- `statcheck(buf, nbuf) == 0` -/
def statcheck (buf : Bytes) : Bool :=
  if buf.length < STATFIXLEN ∨ buf.length ≠ BIT16SZ + (gbit16 buf).toNat then false
  else statcheckStrs buf 4 (STATFIXLEN - 4 * BIT16SZ)

/-- A `char*` of the record that is filled in: as it was, to `nullstring`, or to the string at an address. -/
inductive StrPtr
  | unset
  | nullstring
  | at_ (o : Nat)
deriving DecidableEq

/-- The `n` bytes of the buffer from `p` on, `none` if they are not all in it. -/
def peek (mem : Bytes) (buf ebuf p n : Nat) : Option Bytes :=
  if buf ≤ p ∧ p + n ≤ ebuf ∧ ebuf ≤ mem.length then some ((mem.drop p).take n) else none

/-- `memmove(strs, bs, ns)` and the `'\0'` behind it, `none` if they are not in the memory. -/
def poke0 (mem : Bytes) (strs : Nat) (bs : Bytes) : Option Bytes :=
  if strs + (bs.length + 1) ≤ mem.length then
    some (mem.take strs ++ (bs ++ [0]) ++ mem.drop (strs + (bs.length + 1)))
  else none

/-- Where the decoder is: `p`, `strs`, and the pointers `sv` that it has made. -/
structure Walk where
  mem : Bytes
  p : Nat
  strs : Option Nat
  sv : List Nat

/-- What the loop makes of the strings, `inl` when it returns 0. -/
def getStrs (buf ebuf : Nat) : Nat → Walk → Option (Walk ⊕ Walk)
  | 0, w => some (.inr w)
  | i + 1, w =>
    if w.p + BIT16SZ > ebuf then some (.inl w)
    else do
      let ns := (gbit16 (← peek w.mem buf ebuf w.p BIT16SZ)).toNat
      let p := w.p + BIT16SZ
      if p + ns > ebuf then some (.inl { w with p := p })
      else
        match w.strs with
        | none => getStrs buf ebuf i { w with p := p + ns }
        | some strs => do
          let mem ← poke0 w.mem strs (← peek w.mem buf ebuf p ns)
          getStrs buf ebuf i ⟨mem, p + ns, some (strs + (ns + 1)), w.sv ++ [strs]⟩

def getFixed (mem : Bytes) (buf ebuf : Nat) (d : Dir StrPtr) : Option (Dir StrPtr × Nat) := do
  let p := buf + BIT16SZ
  let type ← peek mem buf ebuf p BIT16SZ
  let p := p + BIT16SZ
  let dev ← peek mem buf ebuf p BIT32SZ
  let p := p + BIT32SZ
  let qtype ← peek mem buf ebuf p BIT8SZ
  let p := p + BIT8SZ
  let vers ← peek mem buf ebuf p BIT32SZ
  let p := p + BIT32SZ
  let path ← peek mem buf ebuf p BIT64SZ
  let p := p + BIT64SZ
  let mode ← peek mem buf ebuf p BIT32SZ
  let p := p + BIT32SZ
  let atime ← peek mem buf ebuf p BIT32SZ
  let p := p + BIT32SZ
  let mtime ← peek mem buf ebuf p BIT32SZ
  let p := p + BIT32SZ
  let length ← peek mem buf ebuf p BIT64SZ
  let p := p + BIT64SZ
  pure ({ d with
    type := (gbit16 type).toUInt32, dev := gbit32 dev, qid := ⟨gbit64 path, gbit32 vers, gbit8 qtype⟩,
    mode := gbit32 mode, atime := gbit32 atime, mtime := gbit32 mtime, length := (gbit64 length).toInt64 }, p)

/-- The value that `convM2D` returns, the record and the memory. -/
structure Decoded where
  ret : Nat
  dir : Dir StrPtr
  mem : Bytes

/-- `convM2D(buf, nbuf, d, strs)`, `none` if it touches a byte outside the buffer or the memory. -/
def convM2D (mem : Bytes) (buf nbuf : Nat) (d : Dir StrPtr) (strs : Option Nat) : Option Decoded :=
  if nbuf < STATFIXLEN then some ⟨0, d, mem⟩
  else do
    let (d, p) ← getFixed mem buf (buf + nbuf) d
    match ← getStrs buf (buf + nbuf) 4 ⟨mem, p, strs, []⟩ with
    | .inl w => pure ⟨0, d, w.mem⟩
    | .inr w =>
      let sv i := if strs.isSome then StrPtr.at_ (w.sv.getD i 0) else .nullstring
      pure ⟨w.p - buf, { d with name := sv 0, uid := sv 1, gid := sv 2, muid := sv 3 }, w.mem⟩

def StrPtr.deref (mem : Bytes) : StrPtr → CharPtr
  | unset => none
  | nullstring => some .empty
  | at_ o => some (cstrAt mem o)

/-- What the caller sees: the value returned and the record with its strings. -/
def Decoded.view (r : Decoded) : Nat × Dir CharPtr := (r.ret, r.dir.map (StrPtr.deref r.mem))

/-! ### The layout, once -/

namespace Dir

def size (d : Dir CharPtr) : Nat := STATFIXLEN + (d.strs.map fun s => s.str.strlen).sum

/-- What is between the size and the strings. -/
def fixedBytes {S : Type} (d : Dir S) : Bytes :=
  pbit16 d.type.toUInt16 ++ (pbit32 d.dev ++ (pbit8 d.qid.type ++ (pbit32 d.qid.vers ++ (pbit64 d.qid.path ++
    (pbit32 d.mode ++ (pbit32 d.atime ++ (pbit32 d.mtime ++ pbit64 d.length.toUInt64)))))))

def strsBytes (sv : List CharPtr) : Bytes := sv.flatMap fun s => strBytes s.str

def bytes (d : Dir CharPtr) : Bytes :=
  pbit16 (UInt16.ofNat (d.size - BIT16SZ)) ++ (d.fixedBytes ++ strsBytes d.strs)

theorem length_strsBytes (sv : List CharPtr) :
    (strsBytes sv).length = sv.length * BIT16SZ + (sv.map fun s => s.str.strlen).sum := by
  induction sv with
  | nil => rfl
  | cons s sv ih =>
    simp only [strsBytes, flatMap_cons, length_append, length_strBytes, map_cons, sum_cons,
      length_cons] at ih ⊢
    rw [ih]
    simp only [BIT16SZ]
    omega

theorem length_bytes (d : Dir CharPtr) : d.bytes.length = d.size := by
  have hfixed : d.fixedBytes.length = 39 := rfl
  simp only [bytes, size, length_append, length_strsBytes, hfixed, length_pbit16]
  simp only [STATFIXLEN, QIDSZ, BIT8SZ, BIT16SZ, BIT32SZ, BIT64SZ]
  have hstrs : d.strs.length = 4 := rfl
  omega

end Dir

/-! ### The encoder writes the layout -/

theorem toNat_nsv {s : CharPtr} (hs : s.str.strlen < 2 ^ 32) : (nsv s).toNat = s.str.strlen :=
  UInt32.toNat_ofNat_of_lt' hs

theorem toNat_sizeD2M {d : Dir CharPtr} (hd : d.size < 2 ^ 32) : (sizeD2M d).toNat = d.size := by
  unfold Dir.size at hd
  simp only [sizeD2M, Dir.size, nsv, Dir.strs, map_cons, map_nil, sum_cons, sum_nil,
    UInt32.toNat_add, UInt32.toNat_ofNat', UInt32.toNat_zero] at hd ⊢
  omega

theorem wp_putStrs {sv : List CharPtr} {s : Cur Unit} {a t : Bytes} {Q : Unit → Cur Unit → Prop} {R : Cur Unit → Prop}
    (hs : At s a t) (hsv : ∀ s ∈ sv, s.str.strlen < 2 ^ 32) (ht : (Dir.strsBytes sv).length ≤ t.length)
    (hQ : ∀ s', At s' (a ++ Dir.strsBytes sv) (t.drop (Dir.strsBytes sv).length) → Q () s') :
    wp (putStrs sv) Q R s := by
  induction sv generalizing s a t with
  | nil => exact hQ s (by simpa [Dir.strsBytes] using hs)
  | cons c sv ih =>
    have hc := toNat_nsv (hsv c mem_cons_self)
    have hsplit : Dir.strsBytes (c :: sv) = strBytes c.str ++ Dir.strsBytes sv := flatMap_cons
    rw [hsplit, length_append] at ht
    have hlen : (strBytes c.str).length = 2 + c.str.strlen := length_strBytes _
    have hemit : (emit (pbit16 (nsv c).toUInt16) >>= fun _ => emit (c.str.bytes.take (nsv c).toNat) >>= fun _ =>
        putStrs sv) = (emit (strBytes c.str) >>= fun _ => putStrs sv : BufM Unit Unit) := by
      rw [emit_append_bind, hc]
      simp only [nsv, toUInt16_ofNat, CStr.strlen, take_length, strBytes]
    unfold putStrs
    dsimp only
    rw [hemit, wp_bind]
    refine hs.chk (by simp only [hc, BIT16SZ]; omega) ?_
    rw [wp_bind]
    refine hs.emit (by omega) fun s' hs' => ih hs' (fun x hx => hsv x (mem_cons_of_mem _ hx)) ?_ fun s'' hs'' => ?_
    · rw [length_drop]
      omega
    · refine hQ s'' ?_
      rw [hsplit, length_append, ← append_assoc, ← drop_drop]
      exact hs''

theorem convD2M_fits {d : Dir CharPtr} {buf : Bytes} (hd : d.size < 2 ^ 32) (hbuf : d.size ≤ buf.length) :
    convD2M d buf = some (sizeD2M d, d.bytes ++ buf.drop d.size) := by
  have hss := toNat_sizeD2M hd
  have hsize : STATFIXLEN ≤ d.size := Nat.le_add_right _ _
  simp only [STATFIXLEN, QIDSZ, BIT8SZ, BIT16SZ, BIT32SZ, BIT64SZ] at hsize
  have hstrs : ∀ s ∈ d.strs, s.str.strlen < 2 ^ 32 := fun s hs => by
    have := single_le_sum (l := d.strs.map fun s => s.str.strlen) (fun _ _ => zero_le) _
      (mem_map_of_mem hs)
    unfold Dir.size at hd
    omega
  have hlow : (sizeD2M d - UInt32.ofNat BIT16SZ).toUInt16 = UInt16.ofNat (d.size - BIT16SZ) := by
    apply UInt16.toNat_inj.mp
    have h2 : (UInt32.ofNat BIT16SZ).toNat = 2 := rfl
    rw [UInt32.toNat_toUInt16, UInt32.toNat_sub, hss, h2, UInt16.toNat_ofNat']
    simp only [BIT16SZ]
    omega
  have hwp : wp (putDir d buf.length) (fun n s => n = sizeD2M d ∧ s.buf = d.bytes ++ buf.drop d.size) (fun _ => False)
      ⟨0, buf, ()⟩ := by
    unfold putDir
    rw [if_neg (by simp only [BIT16SZ]; omega)]
    dsimp only
    rw [if_neg (by omega), hlow]
    simp only [emit_append_bind]
    rw [wp_bind]
    have h0 : At (⟨0, buf, ()⟩ : Cur Unit) [] buf := ⟨rfl, rfl⟩
    have hfixed : (pbit16 (UInt16.ofNat (d.size - BIT16SZ)) ++ d.fixedBytes).length = 41 := rfl
    refine h0.emit (u := pbit16 (UInt16.ofNat (d.size - BIT16SZ)) ++ d.fixedBytes) (by omega) fun s hs => ?_
    have hlen := d.length_bytes
    simp only [Dir.bytes, ← append_assoc, length_append] at hlen
    rw [length_append] at hfixed
    rw [wp_bind]
    refine wp_putStrs hs hstrs ?_ fun s' hs' => ?_
    · rw [length_drop, length_append]
      omega
    have hp : s'.p = d.size := by
      rw [hs'.p, nil_append, append_assoc]
      exact d.length_bytes
    rw [wp_bind, wp_here, if_neg (by rw [hss, hp]; exact fun h => h rfl), wp_pure]
    refine ⟨rfl, ?_⟩
    rw [hs'.buf, nil_append, append_assoc, drop_drop, length_append, hlen]
    rfl
  unfold wp at hwp
  unfold convD2M
  cases h : putDir d buf.length ⟨0, buf, ()⟩ with
  | ok n s =>
    rw [h] at hwp
    rw [← hwp.1, ← hwp.2]
  | ret0 s =>
    rw [h] at hwp
    exact hwp.elim
  | fault =>
    rw [h] at hwp
    exact hwp.elim

theorem convD2M_eq {d : Dir CharPtr} {buf : Bytes} (hd : d.size < 2 ^ 32) (hbuf : buf.length = d.size) :
    convD2M d buf = some (sizeD2M d, d.bytes) := by
  rw [convD2M_fits hd hbuf.ge, ← hbuf, drop_length, append_nil]

theorem convD2M_short {d : Dir CharPtr} {buf : Bytes} (hd : d.size < 2 ^ 32) (hbuf : buf.length < d.size) :
    ∃ n b, convD2M d buf = some (n, b) ∧ n.toNat ≤ BIT16SZ ∧ b.length = buf.length := by
  have hss := toNat_sizeD2M hd
  by_cases h2 : buf.length < BIT16SZ
  · have hput : putDir d buf.length ⟨0, buf, ()⟩ = .ret0 ⟨0, buf, ()⟩ := by
      rw [putDir, if_pos h2]
      rfl
    rw [convD2M, hput]
    exact ⟨0, buf, rfl, zero_le, rfl⟩
  generalize hsz : pbit16 (sizeD2M d - UInt32.ofNat BIT16SZ).toUInt16 = sz
  have hlen : sz.length = BIT16SZ := by
    rw [← hsz]
    rfl
  have hput : putDir d buf.length ⟨0, buf, ()⟩ =
      .ok (UInt32.ofNat BIT16SZ) ⟨0 + sz.length, buf.take 0 ++ sz ++ buf.drop (0 + sz.length), ()⟩ := by
    unfold putDir
    rw [if_neg h2]
    simp only [hsz]
    rw [BufM.bind_apply, emit, if_pos (by dsimp only; omega)]
    dsimp only
    rw [if_pos (by omega)]
    rfl
  rw [convD2M, hput]
  refine ⟨_, _, rfl, le_rfl, ?_⟩
  simp only [length_append, length_take, length_drop]
  omega

/-! ### What a buffer says -/

/-- The strings of a buffer, and what is left. -/
def splitStrs : Nat → Bytes → Option (List Bytes × Bytes)
  | 0, t => some ([], t)
  | i + 1, t =>
    if t.length < BIT16SZ then none
    else
      let ns := (gbit16 t).toNat
      let t := t.drop BIT16SZ
      if t.length < ns then none else (splitStrs i (t.drop ns)).map fun x => (t.take ns :: x.1, x.2)

def cstr (s : Bytes) : CStr := cstrAt s 0

namespace Dir
variable {S : Type}

def setFixed (b : Bytes) (d : Dir S) : Dir S :=
  let field k n := (b.drop k).take n
  { d with
    type := (gbit16 (field 2 BIT16SZ)).toUInt32, dev := gbit32 (field 4 BIT32SZ),
    qid := ⟨gbit64 (field 13 BIT64SZ), gbit32 (field 9 BIT32SZ), gbit8 (field 8 BIT8SZ)⟩,
    mode := gbit32 (field 21 BIT32SZ), atime := gbit32 (field 25 BIT32SZ), mtime := gbit32 (field 29 BIT32SZ),
    length := (gbit64 (field 33 BIT64SZ)).toInt64 }

def setStrs (d : Dir S) (sv : Nat → S) : Dir S :=
  { d with name := sv 0, uid := sv 1, gid := sv 2, muid := sv 3 }

/-- The value returned and the record. With `strs = false` the strings are not kept. -/
def entry (b : Bytes) (strs : Bool) (d : Dir CharPtr) : Nat × Dir CharPtr :=
  if b.length < STATFIXLEN then (0, d)
  else
    match splitStrs 4 (b.drop 41) with
    | none => (0, d.setFixed b)
    | some (ss, t) =>
      (b.length - t.length, (d.setFixed b).setStrs fun i => some (if strs then cstr (ss.getD i []) else .empty))

end Dir

/-- The area is nowhere, not behind the buffer's start, or behind its end with room for all strings. -/
def Area (mem : Bytes) (buf nbuf : Nat) : Option Nat → Prop
  | none => True
  | some strs => strs ≤ buf ∨ buf + nbuf ≤ strs ∧ strs + nbuf ≤ mem.length

/-! ### The decoder finds it -/

section Strings
variable {mem mem' s t : Bytes} {k q : Nat}

theorem takeWhile_nul (s t : Bytes) : (s ++ 0 :: t).takeWhile (· ≠ 0) = s.takeWhile (· ≠ 0) := by
  induction s with
  | nil => rfl
  | cons b s ih =>
    by_cases hb : b = 0
    · rw [cons_append, takeWhile_cons_of_neg
        (by simpa using hb), takeWhile_cons_of_neg (by simpa using hb)]
    · rw [cons_append, takeWhile_cons_of_pos
        (by simpa using hb), takeWhile_cons_of_pos (by simpa using hb),
        ih]

theorem cstrAt_eq (h : (mem.take (q + (s.length + 1))).drop q = s ++ [0]) : cstrAt mem q = cstr s := by
  have hdrop : mem.drop q = s ++ 0 :: mem.drop (q + (s.length + 1)) := by
    rw [drop_take, Nat.add_sub_cancel_left] at h
    conv_lhs => rw [← take_append_drop (s.length + 1) (mem.drop q), h, drop_drop]
    simp
  apply CStr.ext
  change (mem.drop q).takeWhile (· ≠ 0) = (s.drop 0).takeWhile (· ≠ 0)
  rw [hdrop, takeWhile_nul, drop_zero]

theorem peek_eq {buf ebuf p n : Nat} (hb : buf ≤ p) (hp : p + n ≤ ebuf) (hm : ebuf ≤ mem.length) :
    peek mem buf ebuf p n = some (((mem.take ebuf).drop p).take n) := by
  rw [peek, if_pos ⟨hb, hp, hm⟩, drop_take, take_take, min_eq_left (by omega)]

section Poke
variable (hm : q + (s.length + 1) ≤ mem.length)
include hm

theorem poke0_eq : poke0 mem q s = some (mem.take q ++ (s ++ [0]) ++ mem.drop (q + (s.length + 1))) := if_pos hm

theorem poke_length : (mem.take q ++ (s ++ [0]) ++ mem.drop (q + (s.length + 1))).length = mem.length := by
  simp only [length_append, length_take, length_drop, length_singleton]
  omega

theorem poke_take (hk : k ≤ q) : (mem.take q ++ (s ++ [0]) ++ mem.drop (q + (s.length + 1))).take k = mem.take k := by
  rw [append_assoc, take_append_of_le_length (by rw [length_take]; omega), take_take,
    min_eq_left hk]

theorem poke_drop (hk : q + (s.length + 1) ≤ k) :
    (mem.take q ++ (s ++ [0]) ++ mem.drop (q + (s.length + 1))).drop k = mem.drop k := by
  have hlen : (mem.take q ++ (s ++ [0])).length = q + (s.length + 1) := by
    simp only [length_append, length_take, length_singleton]
    omega
  rw [drop_append, drop_eq_nil_of_le (by rw [hlen]; exact hk), nil_append, drop_drop, hlen,
    Nat.add_sub_cancel' hk]

theorem poke_holds : ((mem.take q ++ (s ++ [0]) ++ mem.drop (q + (s.length + 1))).take (q + (s.length + 1))).drop q =
    s ++ [0] := by
  have hlen : (mem.take q ++ (s ++ [0])).length = q + (s.length + 1) := by
    simp only [length_append, length_take, length_singleton]
    omega
  rw [take_append_of_le_length (by rw [hlen]), take_of_length_le (by rw [hlen])]
  have hq : (mem.take q).length = q := length_take_of_le (by omega)
  exact drop_left' hq

end Poke

theorem gbit16_take (t : Bytes) : gbit16 (t.take BIT16SZ) = gbit16 t := by
  match t with
  | [] => rfl
  | [_] => rfl
  | _ :: _ :: _ => rfl

theorem getStrs_spec {buf ebuf : Nat} (i : Nat) {w : Walk} (hb : buf ≤ w.p) (hp : w.p ≤ ebuf) (hm : ebuf ≤ w.mem.length)
    (hq : ∀ q, w.strs = some q → q ≤ w.p ∨ ebuf ≤ q ∧ q + (ebuf - w.p) ≤ w.mem.length) :
    (splitStrs i ((w.mem.take ebuf).drop w.p) = none → ∃ w', getStrs buf ebuf i w = some (.inl w')) ∧
      ∀ ss t, splitStrs i ((w.mem.take ebuf).drop w.p) = some (ss, t) → ∃ w', getStrs buf ebuf i w = some (.inr w') ∧
        w'.p + t.length = ebuf ∧ ∀ q, w.strs = some q → w'.mem.take q = w.mem.take q ∧
          ∃ sv, w'.sv = w.sv ++ sv ∧ List.Forall₂ (fun o s => cstrAt w'.mem o = cstr s) sv ss := by
  induction i generalizing w with
  | zero =>
    refine ⟨(by intro h; cases h), fun ss t h => ?_⟩
    cases h
    refine ⟨w, rfl, ?_, fun q _ => ⟨rfl, [], by simp, .nil⟩⟩
    rw [length_drop, length_take]
    omega
  | succ i ih =>
    have hlen : ((w.mem.take ebuf).drop w.p).length = ebuf - w.p := by
      rw [length_drop, length_take, min_eq_left hm]
    by_cases h2 : ebuf < w.p + BIT16SZ
    · have hnone : splitStrs (i + 1) ((w.mem.take ebuf).drop w.p) = none := if_pos (by omega)
      rw [hnone]
      exact ⟨fun _ => ⟨w, if_pos h2⟩, fun ss t h => by cases h⟩
    have hgbit : (peek w.mem buf ebuf w.p BIT16SZ).map gbit16 = some (gbit16 ((w.mem.take ebuf).drop w.p)) := by
      rw [peek_eq hb (by omega) hm, map_some, gbit16_take]
    obtain ⟨b, hpeek, hgb⟩ := map_eq_some_iff.1 hgbit
    generalize hns : (gbit16 ((w.mem.take ebuf).drop w.p)).toNat = ns
    have hdrop : ((w.mem.take ebuf).drop w.p).drop BIT16SZ = (w.mem.take ebuf).drop (w.p + BIT16SZ) := by
      rw [drop_drop]
    have hsplit : splitStrs (i + 1) ((w.mem.take ebuf).drop w.p) = if ebuf < w.p + BIT16SZ + ns then none
        else (splitStrs i ((w.mem.take ebuf).drop (w.p + BIT16SZ + ns))).map fun x =>
          (((w.mem.take ebuf).drop (w.p + BIT16SZ)).take ns :: x.1, x.2) := by
      rw [splitStrs, if_neg (by omega)]
      dsimp only
      rw [hns, hdrop, drop_drop, length_drop, length_take, min_eq_left hm]
      by_cases hc : ebuf < w.p + BIT16SZ + ns
      · rw [if_pos hc, if_pos (by omega)]
      · rw [if_neg hc, if_neg (by omega)]
    have hstep : getStrs buf ebuf (i + 1) w = if ebuf < w.p + BIT16SZ + ns then some
      (.inl { w with p := w.p + BIT16SZ })
        else w.strs.elim (getStrs buf ebuf i { w with p := w.p + BIT16SZ + ns }) fun strs =>
          (peek w.mem buf ebuf (w.p + BIT16SZ) ns).bind fun s => (poke0 w.mem strs s).bind fun mem =>
            getStrs buf ebuf i ⟨mem, w.p + BIT16SZ + ns, some (strs + (ns + 1)), w.sv ++ [strs]⟩ := by
      rw [getStrs, if_neg h2, hpeek]
      dsimp only [bind, Option.bind]
      rw [hgb, hns]
      cases w.strs <;> rfl
    rw [hsplit, hstep]
    by_cases hc : ebuf < w.p + BIT16SZ + ns
    · rw [if_pos hc, if_pos hc]
      exact ⟨fun _ => ⟨_, rfl⟩, fun ss t h => by cases h⟩
    rw [if_neg hc, if_neg hc]
    cases hstrs : w.strs with
    | none =>
      obtain ⟨h1, h2⟩ := ih (w := { w with p := w.p + BIT16SZ + ns }) (le_trans hb (by dsimp only; omega))
        (Nat.not_lt.1 hc) hm fun q hq' => by cases hstrs.symm.trans hq'
      dsimp only at h1 h2
      rw [hstrs] at h1 h2
      refine ⟨fun h => h1 (by simpa using h), fun ss t h => ?_⟩
      obtain ⟨x, hx, hxs⟩ := map_eq_some_iff.1 h
      cases hxs
      obtain ⟨w', hw', hpt, -⟩ := h2 _ _ hx
      exact ⟨w', hw', hpt, fun q hq' => by cases hq'⟩
    | some q =>
      generalize hs : ((w.mem.take ebuf).drop (w.p + BIT16SZ)).take ns = s
      have hslen : s.length = ns := by
        rw [← hs, length_take, length_drop, length_take]
        omega
      have hroom := hq q hstrs
      have hfit : q + (s.length + 1) ≤ w.mem.length := by
        simp only [BIT16SZ] at hc
        omega
      have hmem1 := poke_length hfit
      have hpeek' : peek w.mem buf ebuf (w.p + BIT16SZ) ns = some s := by
        rw [peek_eq (by omega) (by omega) hm, hs]
      have hunread : ((w.mem.take q ++ (s ++ [0]) ++ w.mem.drop (q + (s.length + 1))).take ebuf).drop
          (w.p + BIT16SZ + ns) = (w.mem.take ebuf).drop (w.p + BIT16SZ + ns) := by
        rcases hroom with hle | ⟨hle, -⟩
        · rw [drop_take, drop_take, poke_drop hfit (by simp only [BIT16SZ]; omega)]
        · rw [poke_take hfit hle]
      rw [elim_some, hpeek', bind_some, poke0_eq hfit, bind_some]
      obtain ⟨h1, h2⟩ := ih (w := ⟨w.mem.take q ++ (s ++ [0]) ++ w.mem.drop (q + (s.length + 1)),
        w.p + BIT16SZ + ns, some (q + (ns + 1)), w.sv ++ [q]⟩) (le_trans hb (by dsimp only; omega))
        (Nat.not_lt.1 hc) (hm.trans hmem1.ge) fun q' hq' => by
          cases hq'
          dsimp only
          rw [hmem1]
          simp only [BIT16SZ] at hc ⊢
          omega
      dsimp only at h1 h2
      rw [hunread] at h1 h2
      refine ⟨fun h => h1 (by simpa using h), fun ss t h => ?_⟩
      obtain ⟨x, hx, hxs⟩ := map_eq_some_iff.1 h
      cases hxs
      obtain ⟨w', hw', hpt, hrest⟩ := h2 _ _ hx
      obtain ⟨htake, sv, hsv, hall⟩ := hrest _ rfl
      refine ⟨w', hw', hpt, fun q' hq' => ?_⟩
      cases hq'
      constructor
      · have := congrArg (take q) htake
        rw [take_take, take_take, min_eq_left (by omega)] at this
        rw [this, poke_take hfit le_rfl]
      · refine ⟨q :: sv, by rw [hsv, append_assoc]; rfl, .cons (cstrAt_eq ?_) hall⟩
        rw [hslen, htake, ← hslen]
        exact poke_holds hfit

end Strings

section Entry
variable {mem b : Bytes} {buf : Nat} {d : Dir StrPtr} {strs : Option Nat}

/-- The bytes `b` are at `buf`. -/
structure Laid (mem : Bytes) (buf : Nat) (b : Bytes) : Prop where
  fits : buf + b.length ≤ mem.length
  eq : (mem.take (buf + b.length)).drop buf = b

theorem Laid.drop (h : Laid mem buf b) (k : Nat) : (mem.take (buf + b.length)).drop (buf + k) = b.drop k := by
  rw [← drop_drop, h.eq]

theorem getFixed_eq (h : Laid mem buf b) (hb : STATFIXLEN ≤ b.length) (d : Dir StrPtr) :
    getFixed mem buf (buf + b.length) d = some (d.setFixed b, buf + 41) := by
  have hfield : ∀ k n, k + n ≤ 41 → peek mem buf (buf + b.length) (buf + k) n = some ((b.drop k).take n) := by
    intro k n hk
    simp only [STATFIXLEN, QIDSZ, BIT8SZ, BIT16SZ, BIT32SZ, BIT64SZ] at hb
    rw [peek_eq (by omega) (by omega) h.fits, h.drop]
  unfold getFixed Dir.setFixed
  simp only [BIT8SZ, BIT16SZ, BIT32SZ, BIT64SZ, add_assoc, Nat.reduceAdd]
  simp only [hfield 2 2 (by decide), hfield 4 4 (by decide), hfield 8 1 (by decide), hfield 9 4 (by decide),
    hfield 13 8 (by decide), hfield 21 4 (by decide), hfield 25 4 (by decide), hfield 29 4 (by decide),
    hfield 33 8 (by decide), bind_eq_bind, bind_some]
  rfl

theorem forall₂_getD {α β : Type} {R : α → β → Prop} {l : List α} {m : List β} (h : List.Forall₂ R l m) {i : Nat}
    (hi : i < m.length) (x : α) (y : β) : R (l.getD i x) (m.getD i y) := by
  induction h generalizing i with
  | nil => cases hi
  | cons hab _ ih =>
    cases i with
    | zero => exact hab
    | succ i => exact ih (Nat.lt_of_succ_lt_succ hi)

theorem length_splitStrs {i : Nat} {t u : Bytes} {ss : List Bytes} (h : splitStrs i t = some (ss, u)) :
    ss.length = i := by
  induction i generalizing t ss with
  | zero =>
    cases h
    rfl
  | succ i ih =>
    rw [splitStrs] at h
    split_ifs at h with h2
    dsimp only at h
    split_ifs at h with hns
    obtain ⟨x, hx, hxs⟩ := map_eq_some_iff.1 h
    cases hxs
    exact congrArg (· + 1) (ih hx)

/-- Wherever the area for the strings is, `convM2D` stays inside its buffer and finds what the buffer says. -/
theorem convM2D_eq (h : Laid mem buf b) (hs : Area mem buf b.length strs) (hd : ∀ s ∈ d.strs, s = .unset) :
    ∃ r, convM2D mem buf b.length d strs = some r ∧ r.view = Dir.entry b strs.isSome (d.map fun _ => none) := by
  obtain ⟨type, dev, qid, mode, atime, mtime, length, name, uid, gid, muid⟩ := d
  obtain rfl := hd name (by simp [Dir.strs])
  obtain rfl := hd uid (by simp [Dir.strs])
  obtain rfl := hd gid (by simp [Dir.strs])
  obtain rfl := hd muid (by simp [Dir.strs])
  unfold convM2D Dir.entry
  by_cases hlen : b.length < STATFIXLEN
  · rw [if_pos hlen, if_pos hlen]
    exact ⟨_, rfl, rfl⟩
  have h41 : 41 ≤ b.length := by
    simp only [STATFIXLEN, QIDSZ, BIT8SZ, BIT16SZ, BIT32SZ, BIT64SZ] at hlen
    omega
  rw [if_neg hlen, if_neg hlen, getFixed_eq h (Nat.not_lt.1 hlen)]
  dsimp only [bind, Option.bind]
  obtain ⟨hnone, hsome⟩ := @getStrs_spec buf (buf + b.length) 4 ⟨mem, buf + 41, strs, []⟩
    (Nat.le_add_right _ _) (Nat.add_le_add_left h41 _) h.fits fun q hq => by
      dsimp only at hq ⊢
      subst hq
      rcases hs with hle | ⟨hle, hroom⟩
      · exact .inl (by omega)
      · exact .inr ⟨hle, by omega⟩
  dsimp only at hnone hsome
  rw [h.drop] at hnone hsome
  cases hsplit : splitStrs 4 (b.drop 41) with
  | none =>
    obtain ⟨w', hw'⟩ := hnone hsplit
    rw [hw']
    exact ⟨_, rfl, rfl⟩
  | some x =>
    obtain ⟨ss, t⟩ := x
    obtain ⟨w', hw', hpt, hrest⟩ := hsome ss t hsplit
    have hret : w'.p - buf = b.length - t.length := by omega
    rw [hw']
    refine ⟨_, rfl, ?_⟩
    dsimp only [Decoded.view]
    rw [hret]
    refine congrArg (Prod.mk _) ?_
    cases strs with
    | none => rfl
    | some q =>
      obtain ⟨-, sv, hsv, hall⟩ := hrest q rfl
      rw [nil_append] at hsv
      have hss := length_splitStrs hsplit
      have hstr : ∀ i, i < 4 → cstrAt w'.mem (w'.sv.getD i 0) = cstr (ss.getD i []) := fun i hi => by
        rw [hsv]
        exact forall₂_getD hall (by omega) 0 []
      simp only [Dir.map, Dir.setStrs, Dir.setFixed, isSome_some, if_true, StrPtr.deref]
      rw [hstr 0 (by decide), hstr 1 (by decide), hstr 2 (by decide), hstr 3 (by decide)]

end Entry

/-! ### The check, and reading back -/

theorem statcheckStrs_iff {b : Bytes} (i : Nat) {p : Nat} :
    statcheckStrs b i p = true ↔ p ≤ b.length ∧ ∃ ss, splitStrs i (b.drop p) = some (ss, []) := by
  induction i generalizing p with
  | zero =>
    simp only [statcheckStrs, splitStrs, beq_iff_eq, Option.some.injEq, Prod.mk.injEq, exists_eq_left',
      drop_eq_nil_iff]
    omega
  | succ i ih =>
    rw [statcheckStrs, splitStrs, length_drop]
    by_cases h2 : p + BIT16SZ > b.length
    · rw [if_pos h2, if_pos (by simp only [BIT16SZ] at h2 ⊢; omega)]
      simp
    rw [if_neg h2, if_neg (by omega), ih]
    dsimp only
    rw [length_drop, length_drop, drop_drop, drop_drop, ← add_assoc]
    generalize (gbit16 (b.drop p)).toNat = ns
    by_cases hns : b.length - p - BIT16SZ < ns
    · rw [if_pos hns]
      simp only [reduceCtorEq, exists_false, and_false, iff_false, not_and]
      omega
    rw [if_neg hns]
    constructor
    · rintro ⟨-, ss, hss⟩
      exact ⟨by omega, _, by rw [hss]; rfl⟩
    · rintro ⟨-, ss, hss⟩
      obtain ⟨x, hx, hxs⟩ := map_eq_some_iff.1 hss
      obtain ⟨x1, x2⟩ := x
      obtain rfl : x2 = [] := (Prod.mk.inj hxs).2
      exact ⟨by omega, x1, hx⟩

theorem splitStrs_strsBytes {sv : List CharPtr} (hsv : ∀ s ∈ sv, s.str.strlen < 2 ^ 16) :
    splitStrs sv.length (Dir.strsBytes sv) = some (sv.map fun s => s.str.bytes, []) := by
  induction sv with
  | nil => rfl
  | cons s sv ih =>
    have hs := hsv s mem_cons_self
    have hsplit : Dir.strsBytes (s :: sv) = pbit16 (UInt16.ofNat s.str.strlen) ++
      (s.str.bytes ++ Dir.strsBytes sv) := by
      rw [Dir.strsBytes, flatMap_cons, strBytes, append_assoc]
      rfl
    have hgb : (gbit16 (pbit16 (UInt16.ofNat s.str.strlen) ++ (s.str.bytes ++ Dir.strsBytes sv))).toNat =
        s.str.bytes.length := by
      change (gbit16 (pbit16 (UInt16.ofNat s.str.strlen))).toNat = _
      rw [gbit16_pbit16, UInt16.toNat_ofNat_of_lt' hs]
      rfl
    have hdrop : (pbit16 (UInt16.ofNat s.str.strlen) ++ (s.str.bytes ++ Dir.strsBytes sv)).drop BIT16SZ =
        s.str.bytes ++ Dir.strsBytes sv := rfl
    rw [hsplit, length_cons, splitStrs, if_neg (by simp; omega)]
    dsimp only
    rw [hgb, hdrop, if_neg (by simp), drop_left, take_left, ih fun x hx => hsv x (mem_cons_of_mem _ hx)]
    rfl

theorem cstr_bytes (s : CStr) : cstr s.bytes = s := by
  apply CStr.ext
  change (s.bytes.drop 0).takeWhile (· ≠ 0) = s.bytes
  rw [drop_zero, takeWhile_eq_self_iff]
  intro b hb
  rw [decide_eq_true_eq]
  rintro rfl
  exact s.nul_free hb

namespace Dir
variable {d : Dir CharPtr}

/-- What comes back of an entry: the low half of its type, and empty strings for nil. -/
def received (d : Dir CharPtr) : Dir CharPtr := { d.map fun s => some s.str with type := d.type.toUInt16.toUInt32 }

section
variable (hd : d.size ≤ 65537)
include hd

theorem strlen_lt : ∀ s ∈ d.strs, s.str.strlen < 2 ^ 16 := fun s hs => by
  have := single_le_sum (l := d.strs.map fun s => s.str.strlen) (fun _ _ => zero_le) _
    (mem_map_of_mem hs)
  simp only [size, STATFIXLEN, QIDSZ, BIT8SZ, BIT16SZ, BIT32SZ, BIT64SZ] at hd
  omega

theorem split_bytes :
    splitStrs 4 (d.bytes.drop 41) = some (d.strs.map fun s => s.str.bytes, []) :=
  splitStrs_strsBytes (strlen_lt hd)

theorem statcheck_bytes : statcheck d.bytes = true := by
  have hsize : STATFIXLEN ≤ d.size := Nat.le_add_right _ _
  have hgb : (gbit16 d.bytes).toNat = d.size - BIT16SZ := by
    change (gbit16 (pbit16 (UInt16.ofNat (d.size - BIT16SZ)))).toNat = _
    rw [gbit16_pbit16, UInt16.toNat_ofNat_of_lt']
    simp only [BIT16SZ, UInt16.size]
    omega
  unfold statcheck
  rw [hgb, length_bytes, if_neg, statcheckStrs_iff]
  · refine ⟨?_, _, split_bytes hd⟩
    rw [length_bytes]
    exact le_trans (by decide) hsize
  · simp only [STATFIXLEN, QIDSZ, BIT8SZ, BIT16SZ, BIT32SZ, BIT64SZ] at hsize ⊢
    omega

theorem entry_bytes (d' : Dir CharPtr) : entry d.bytes true d' = (d.size, d.received) := by
  have hsize : STATFIXLEN ≤ d.bytes.length := d.length_bytes ▸ Nat.le_add_right _ _
  unfold entry
  rw [if_neg (Nat.not_lt.2 hsize), split_bytes hd, length_bytes]
  dsimp only
  have hfix : (d'.setFixed d.bytes).setStrs
    (fun i => some (if true then cstr ((d.strs.map fun s => s.str.bytes).getD i [])
      else .empty)) = d.received := by
    obtain ⟨type, dev, qid, mode, atime, mtime, length, name, uid, gid, muid⟩ := d
    have h16 : gbit16 (pbit16 type.toUInt16) = type.toUInt16 := gbit16_pbit16 _
    simp only [setStrs, received, map, strs, map_cons, map_nil, getD_cons_zero, getD_cons_succ,
      cstr_bytes, if_true, setFixed]
    congr 1
    · exact congrArg UInt16.toUInt32 (gbit16_pbit16 type.toUInt16)
    · exact gbit32_pbit32 dev
    · obtain ⟨path, vers, qtype⟩ := qid
      exact congrArg₂ (fun p v => Qid.mk p v qtype) (gbit64_pbit64 path) (gbit32_pbit32 vers)
    · exact gbit32_pbit32 mode
    · exact gbit32_pbit32 atime
    · exact gbit32_pbit32 mtime
    · exact (congrArg UInt64.toInt64 (gbit64_pbit64 length.toUInt64)).trans (by simp)
  rw [hfix]
  rfl

end

end Dir

section Codec
variable {mem b : Bytes} {buf : Nat} {d : Dir StrPtr} {strs : Option Nat}

theorem entry_of_statcheck (hb : statcheck b = true) (strs : Bool) (d : Dir CharPtr) :
    (Dir.entry b strs d).1 = b.length := by
  unfold statcheck at hb
  split_ifs at hb with hlen
  obtain ⟨-, ss, hss⟩ := (statcheckStrs_iff 4).1 hb
  have h41 : splitStrs 4 (b.drop 41) = some (ss, []) := hss
  unfold Dir.entry
  rw [if_neg fun h => hlen (.inl h), h41]
  rfl

/-- An entry is read back but for the high half of its type, the decoder stays inside what the check accepts, and it
finds the same in place. -/
theorem codec :
    (∀ (d : Dir CharPtr) (nbuf : Bytes), d.size ≤ 65537 → nbuf.length = (sizeD2M d).toNat → ∃ b,
      convD2M d nbuf = some (sizeD2M d, b) ∧ statcheck b = true ∧
        ∀ (mem : Bytes) (buf strs : Nat) (d' : Dir StrPtr), Laid mem buf b → Area mem buf b.length (some strs) →
          (∀ s ∈ d'.strs, s = .unset) → ∃ r, convM2D mem buf b.length d' (some strs) = some r ∧
            r.view = ((sizeD2M d).toNat, d.received)) ∧
    (∀ (b mem : Bytes) (buf : Nat) (strs : Option Nat) (d : Dir StrPtr), statcheck b = true → Laid mem buf b →
      Area mem buf b.length strs → (∀ s ∈ d.strs, s = .unset) → ∃ r, convM2D mem buf b.length d strs = some r ∧
        r.ret = b.length) ∧
    ∀ (b mem mem' : Bytes) (buf buf' strs : Nat) (d : Dir StrPtr), Laid mem buf b → Laid mem' buf' b →
      Area mem' buf' b.length (some strs) → (∀ s ∈ d.strs, s = .unset) → ∃ r r',
        convM2D mem buf b.length d (some buf) = some r ∧ convM2D mem' buf' b.length d (some strs) = some r' ∧
          r.view = r'.view := by
  refine ⟨fun d nbuf hd hn => ?_, fun b mem buf strs d hb hp ha hu => ?_,
    fun b mem mem' buf buf' strs d hp hp' ha hu => ?_⟩
  · have hlt : d.size < 2 ^ 32 := by omega
    rw [toNat_sizeD2M hlt] at hn ⊢
    refine ⟨d.bytes, convD2M_eq hlt hn, Dir.statcheck_bytes hd, fun mem buf strs d' hp ha hu => ?_⟩
    obtain ⟨r, hr, hv⟩ := convM2D_eq hp ha hu
    exact ⟨r, hr, hv.trans (Dir.entry_bytes hd _)⟩
  · obtain ⟨r, hr, hv⟩ := convM2D_eq hp ha hu
    exact ⟨r, hr, (congrArg Prod.fst hv).trans (entry_of_statcheck hb _ _)⟩
  · obtain ⟨r, hr, hv⟩ := @convM2D_eq _ _ _ _ (some buf) hp (.inl le_rfl) hu
    obtain ⟨r', hr', hv'⟩ := convM2D_eq hp' ha hu
    exact ⟨r, r', hr, hr', hv.trans hv'.symm⟩

def emptyDir (type : UInt32) : Dir CharPtr :=
  ⟨type, 0, ⟨0, 0, 0⟩, 0, 0, 0, 0, some .empty, some .empty, some .empty, some .empty⟩

/-- What `smalloc` gives. -/
def freshDir : Dir StrPtr := ⟨0, 0, ⟨0, 0, 0⟩, 0, 0, 0, 0, .unset, .unset, .unset, .unset⟩

/-- A file `q` of `qr`, in the group `r`. -/
def fileOfQr : Dir CharPtr :=
  ⟨7, 0, ⟨5, 1, 0⟩, 0o644, 1, 2, 3, some ⟨[113], by decide⟩, some ⟨[113, 114], by decide⟩, some ⟨[114], by decide⟩, some .empty⟩

theorem codec_fileOfQr : ∃ b, convD2M fileOfQr (replicate 53 0) = some (sizeD2M fileOfQr, b) ∧ statcheck b = true ∧
    ∃ r, convM2D (b ++ replicate 53 1) 0 b.length freshDir (some 53) = some r ∧ r.view = (53, fileOfQr.received) := by
  obtain ⟨b, hb, hcheck, hdec⟩ := codec.1 fileOfQr (replicate 53 0) (by decide) (by decide)
  refine ⟨b, hb, hcheck, ?_⟩
  have hlen : b.length = 53 := by
    rw [convD2M_eq (by decide) (by decide)] at hb
    cases hb
    exact fileOfQr.length_bytes
  have hlaid : Laid (b ++ replicate 53 1) 0 b := ⟨by simp, by simp⟩
  exact hdec _ 0 53 freshDir hlaid (.inr ⟨by omega, by simp [hlen]⟩) (by decide)

/-- There are two bytes for the type. -/
theorem codec_type : ¬ ∀ (d : Dir CharPtr) (nbuf : Bytes), (∀ s ∈ d.strs, s.isSome) → d.size ≤ 65537 →
    nbuf.length = (sizeD2M d).toNat → ∃ b, convD2M d nbuf = some (sizeD2M d, b) ∧
      ∀ (mem : Bytes) (buf strs : Nat) (d' : Dir StrPtr), Laid mem buf b → Area mem buf b.length (some strs) →
        (∀ s ∈ d'.strs, s = .unset) → ∃ r, convM2D mem buf b.length d' (some strs) = some r ∧ r.view.2 = d := by
  intro hall
  have hsize : (emptyDir 65536).size = 49 := rfl
  obtain ⟨b, hb, hdec⟩ := hall (emptyDir 65536) (replicate 49 0) (by decide) (by omega) (by decide)
  rw [convD2M_eq (by omega) (by decide)] at hb
  cases hb
  have hp : Laid (emptyDir 65536).bytes 0 (emptyDir 65536).bytes := ⟨by omega, by simp⟩
  have hu : ∀ s ∈ freshDir.strs, s = .unset := by decide
  obtain ⟨r, hr, hv⟩ := hdec _ 0 0 _ hp (.inl le_rfl) hu
  obtain ⟨r', hr', hv'⟩ := @convM2D_eq _ _ _ _ (some 0) hp (.inl le_rfl) hu
  cases hr.symm.trans hr'
  rw [hv', Option.isSome_some, Dir.entry_bytes (by omega)] at hv
  have htype := congrArg Dir.type hv
  revert htype
  decide

end Codec

end Node9
