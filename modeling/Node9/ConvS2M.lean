import Node9.Fcall

/-!
# Encoding (`convS2M.c`)

`sizeS2M` and `convS2M` as the source writes them: the size in 32-bit unsigned arithmetic, the layout
of every type a second time in the encoder. `Message.bytes` is the layout stated once, over what a
message says; both functions are compared with it.
-/

namespace Node9
open Buf List

/-! ### The two functions -/

abbrev EncM := BufM Unit

def pstring (s : CharPtr) : EncM Unit :=
  match s with
  | none => emit (pbit16 0)
  | some s => do
    let n := UInt32.ofNat s.strlen
    emit (pbit16 n.toUInt16)
    emit (s.bytes.take n.toNat)

def pqid (q : Qid) : EncM Unit := do
  emit (pbit8 q.type)
  emit (pbit32 q.vers)
  emit (pbit64 q.path)

def stringsz (s : CharPtr) : UInt32 :=
  match s with
  | none => 2
  | some s => 2 + UInt32.ofNat s.strlen

/-- `for(i=0; i<f->nwname; i++) n += stringsz(f->wname[i])`. -/
def wnamesz (f : Fcall CharPtr Mem) (n : UInt32) : UInt32 :=
  (List.range f.nwname.toNat).foldl (fun n i => n + stringsz (f.wname i)) n

def sizeS2M (f : Fcall CharPtr Mem) : UInt32 :=
  let n : UInt32 := 0 + 4 + 1 + 2
  match MsgType.ofByte f.type with
  | none => 0
  | some .Tversion => n + 4 + stringsz f.version
  | some .Tflush => n + 2
  | some .Tauth => n + 4 + stringsz f.uname + stringsz f.aname
  | some .Tattach => n + 4 + 4 + stringsz f.uname + stringsz f.aname
  | some .Twalk => wnamesz f (n + 4 + 4 + 2)
  | some .Topen => n + 4 + 1
  | some .Tcreate => n + 4 + stringsz f.name + 4 + 1
  | some .Tread => n + 4 + 8 + 4
  | some .Twrite => n + 4 + 8 + 4 + f.count
  | some .Tclunk | some .Tremove => n + 4
  | some .Tstat => n + 4
  | some .Twstat => n + 4 + 2 + f.nstat.toUInt32
  | some .Rversion => n + 4 + stringsz f.version
  | some .Rerror => n + stringsz f.ename
  | some .Rflush => n
  | some .Rauth => n + 13
  | some .Rattach => n + 13
  | some .Rwalk => n + 2 + f.nwqid.toUInt32 * 13
  | some .Ropen | some .Rcreate => n + 13 + 4
  | some .Rread => n + 4 + f.count
  | some .Rwrite => n + 4
  | some .Rclunk => n
  | some .Rremove => n
  | some .Rstat => n + 2 + f.nstat.toUInt32
  | some .Rwstat => n

/-- `for(i=0; i<f->nwname; i++) p = pstring(p, f->wname[i])`, from `i` on, `k` more. -/
def pwnames (f : Fcall CharPtr Mem) (i : Nat) : Nat → EncM Unit
  | 0 => pure ()
  | k + 1 => do
    pstring (f.wname i)
    pwnames f (i + 1) k

def pwqids (f : Fcall CharPtr Mem) (i : Nat) : Nat → EncM Unit
  | 0 => pure ()
  | k + 1 => do
    pqid (f.wqid i)
    pwqids f (i + 1) k

/-- The second `switch` of `convS2M`. -/
def putBody (f : Fcall CharPtr Mem) : MsgType → EncM Unit
  | .Tversion => do
    emit (pbit32 f.msize)
    pstring f.version
  | .Tflush => emit (pbit16 f.oldtag)
  | .Tauth => do
    emit (pbit32 f.afid)
    pstring f.uname
    pstring f.aname
  | .Tattach => do
    emit (pbit32 f.fid)
    emit (pbit32 f.afid)
    pstring f.uname
    pstring f.aname
  | .Twalk => do
    emit (pbit32 f.fid)
    emit (pbit32 f.newfid)
    emit (pbit16 f.nwname)
    if f.nwname.toNat > MAXWELEM then stop
    else pwnames f 0 f.nwname.toNat
  | .Topen => do
    emit (pbit32 f.fid)
    emit (pbit8 f.mode)
  | .Tcreate => do
    emit (pbit32 f.fid)
    pstring f.name
    emit (pbit32 f.perm)
    emit (pbit8 f.mode)
  | .Tread => do
    emit (pbit32 f.fid)
    emit (pbit64 f.offset.toUInt64)
    emit (pbit32 f.count)
  | .Twrite => do
    emit (pbit32 f.fid)
    emit (pbit64 f.offset.toUInt64)
    emit (pbit32 f.count)
    emit (f.data.read f.count.toNat)
  | .Tclunk | .Tremove => emit (pbit32 f.fid)
  | .Tstat => emit (pbit32 f.fid)
  | .Twstat => do
    emit (pbit32 f.fid)
    emit (pbit16 f.nstat)
    emit (f.stat.read f.nstat.toNat)
  | .Rversion => do
    emit (pbit32 f.msize)
    pstring f.version
  | .Rerror => pstring f.ename
  | .Rflush => pure ()
  | .Rauth => pqid f.aqid
  | .Rattach => pqid f.qid
  | .Rwalk => do
    emit (pbit16 f.nwqid)
    if f.nwqid.toNat > MAXWELEM then stop
    else pwqids f 0 f.nwqid.toNat
  | .Ropen | .Rcreate => do
    pqid f.qid
    emit (pbit32 f.iounit)
  | .Rread => do
    emit (pbit32 f.count)
    emit (f.data.read f.count.toNat)
  | .Rwrite => emit (pbit32 f.count)
  | .Rclunk => pure ()
  | .Rremove => pure ()
  | .Rstat => do
    emit (pbit16 f.nstat)
    emit (f.stat.read f.nstat.toNat)
  | .Rwstat => pure ()

/-- `convS2M` after the two tests of `size`. -/
def putMsg (f : Fcall CharPtr Mem) (size : UInt32) : EncM UInt32 := do
  emit (pbit32 size)
  emit (pbit8 f.type)
  emit (pbit16 f.tag)
  match MsgType.ofByte f.type with
  | none => stop
  | some t =>
    putBody f t
    let p ← here
    if size.toNat ≠ p then stop
    else pure size

/-- `convS2M(f, ap, nap)` for a buffer of `nap = ap.length` bytes: the value returned and the buffer
afterwards, or `none` if a byte outside the buffer was written. -/
def convS2M (f : Fcall CharPtr Mem) (ap : Bytes) : Option (UInt32 × Bytes) :=
  let size := sizeS2M f
  if size = 0 then some (0, ap)
  else if size.toNat > ap.length then some (0, ap)
  else
    match putMsg f size ⟨0, ap, ()⟩ with
    | .ok n s => some (n, s.buf)
    | .ret0 s => some (0, s.buf)
    | .fault => none

/-! ### The layout, once -/

def strBytes (s : CStr) : Bytes := pbit16 (UInt16.ofNat s.strlen) ++ s.bytes

def qidBytes (q : Qid) : Bytes := pbit8 q.type ++ (pbit32 q.vers ++ pbit64 q.path)

namespace Body

def bytes : Body → Bytes
  | Tversion msize version | Rversion msize version => pbit32 msize ++ strBytes version
  | Tauth afid uname aname => pbit32 afid ++ (strBytes uname ++ strBytes aname)
  | Rauth aqid => qidBytes aqid
  | Tattach fid afid uname aname =>
    pbit32 fid ++ (pbit32 afid ++ (strBytes uname ++ strBytes aname))
  | Rattach qid => qidBytes qid
  | Rerror ename => strBytes ename
  | Tflush oldtag => pbit16 oldtag
  | Twalk fid newfid wname =>
    pbit32 fid ++ (pbit32 newfid ++ (pbit16 (UInt16.ofNat wname.length) ++ wname.flatMap strBytes))
  | Rwalk wqid => pbit16 (UInt16.ofNat wqid.length) ++ wqid.flatMap qidBytes
  | Topen fid mode => pbit32 fid ++ pbit8 mode
  | Ropen qid iounit | Rcreate qid iounit => qidBytes qid ++ pbit32 iounit
  | Tcreate fid name perm mode => pbit32 fid ++ (strBytes name ++ (pbit32 perm ++ pbit8 mode))
  | Tread fid offset count => pbit32 fid ++ (pbit64 offset.toUInt64 ++ pbit32 count)
  | Rread data => pbit32 (UInt32.ofNat data.length) ++ data
  | Twrite fid offset data =>
    pbit32 fid ++ (pbit64 offset.toUInt64 ++ (pbit32 (UInt32.ofNat data.length) ++ data))
  | Rwrite count => pbit32 count
  | Tclunk fid | Tremove fid | Tstat fid => pbit32 fid
  | Rstat stat => pbit16 (UInt16.ofNat stat.length) ++ stat
  | Twstat fid stat => pbit32 fid ++ (pbit16 (UInt16.ofNat stat.length) ++ stat)
  | Rflush | Rclunk | Rremove | Rwstat => []

end Body

namespace Message

def size (m : Message) : Nat := BIT32SZ + BIT8SZ + BIT16SZ + m.body.bytes.length

def header (m : Message) : Bytes :=
  pbit32 (UInt32.ofNat m.size) ++ (pbit8 m.body.type.toByte ++ pbit16 m.tag)

def bytes (m : Message) : Bytes := m.header ++ m.body.bytes

@[simp] theorem length_header (m : Message) : m.header.length = 7 := rfl

theorem length_bytes (m : Message) : m.bytes.length = m.size := by
  simp only [bytes, length_append, length_header, size]; rfl

end Message

/-! ### `sizeS2M` is the length of the layout, in 32 bits -/

@[simp] theorem length_strBytes (s : CStr) : (strBytes s).length = 2 + s.strlen := by
  simp [strBytes, CStr.strlen, add_comm]

@[simp] theorem length_qidBytes (q : Qid) : (qidBytes q).length = 13 := rfl

theorem toNat_stringsz (s : CharPtr) : (stringsz s).toNat = (strBytes s.str).length % 2 ^ 32 := by
  cases s with
  | none => rfl
  | some s =>
    simp only [stringsz, length_strBytes, CharPtr.str, Option.getD_some, UInt32.toNat_add, UInt32.toNat_ofNat']
    show (2 + s.strlen % 2 ^ 32) % 2 ^ 32 = _
    omega

theorem toNat_foldl_stringsz (w : Nat → CharPtr) (l : List Nat) (n : UInt32) :
    (l.foldl (fun n i => n + stringsz (w i)) n).toNat =
      (n.toNat + ((l.map fun i => (w i).str).flatMap strBytes).length) % 2 ^ 32 := by
  induction l generalizing n with
  | nil => simp [Nat.mod_eq_of_lt n.toNat_lt]
  | cons i l ih =>
    rw [foldl_cons, ih, UInt32.toNat_add, toNat_stringsz]
    simp only [map_cons, flatMap_cons, length_append]
    omega

theorem length_flatMap_qidBytes (l : List Qid) : (l.flatMap qidBytes).length = l.length * 13 := by
  induction l with
  | nil => rfl
  | cons q l ih => simp only [flatMap_cons, length_append, length_qidBytes, ih, length_cons]; omega

theorem toNat_sizeS2M {f : Fcall CharPtr Mem} {m : Message} (h : f.msg = some m) :
    (sizeS2M f).toNat = m.size % 2 ^ 32 := by
  obtain ⟨ht, hm⟩ := Fcall.msg_eq_some h
  rw [hm, sizeS2M, ht]
  generalize m.body.type = t
  cases t <;>
    simp [-length_flatMap, Message.size, Fcall.body, Body.bytes, toNat_stringsz, wnamesz,
      toNat_foldl_stringsz, length_flatMap_qidBytes] <;> omega

/-! ### The encoder emits the layout -/

theorem toUInt16_ofNat (n : Nat) : (UInt32.ofNat n).toUInt16 = UInt16.ofNat n := by
  apply UInt16.toNat_inj.mp
  simp only [UInt32.toNat_toUInt16, UInt32.toNat_ofNat', UInt16.toNat_ofNat']
  omega

theorem pstring_eq {s : CharPtr} (h : s.str.strlen < 2 ^ 32) : pstring s = emit (strBytes s.str) := by
  cases s with
  | none => rfl
  | some s =>
    have hs : s.strlen < 2 ^ 32 := h
    have hn : (UInt32.ofNat s.strlen).toNat = s.strlen := UInt32.toNat_ofNat_of_lt' hs
    simp only [pstring, toUInt16_ofNat, hn, emit_append]
    simp only [CStr.strlen, List.take_length, CharPtr.str, Option.getD_some, strBytes]

theorem pqid_eq (q : Qid) : pqid q = emit (qidBytes q) := by
  simp only [pqid, qidBytes, emit_append]

theorem emit_pwnames {α : Type} {f : Fcall CharPtr Mem} (b : Bytes) (i k : Nat) (c : Unit → EncM α)
    (h : ∀ j, i ≤ j → j < i + k → (f.wname j).str.strlen < 2 ^ 32) :
    (emit b >>= fun _ => pwnames f i k >>= c) =
      (emit (b ++ ((List.range' i k).map fun j => (f.wname j).str).flatMap strBytes) >>= c) := by
  induction k generalizing b i with
  | zero => simp [pwnames]
  | succ k ih =>
    rw [pwnames, pstring_eq (h i (le_refl i) (by omega))]
    simp only [bind_assoc, emit_append_bind]
    rw [ih _ (i + 1) fun j h₁ h₂ => h j (by omega) (by omega)]
    simp only [range'_succ, map_cons, flatMap_cons, append_assoc]

theorem emit_pwqids {α : Type} {f : Fcall CharPtr Mem} (b : Bytes) (i k : Nat) (c : Unit → EncM α) :
    (emit b >>= fun _ => pwqids f i k >>= c) =
      (emit (b ++ ((List.range' i k).map f.wqid).flatMap qidBytes) >>= c) := by
  induction k generalizing b i with
  | zero => simp [pwqids]
  | succ k ih =>
    rw [pwqids, pqid_eq]
    simp only [bind_assoc, emit_append_bind]
    rw [ih]
    simp only [range'_succ, map_cons, flatMap_cons, append_assoc]

/-- The strings that `f` carries are shorter than `2 ^ 16`. -/
def Fcall.ShortStrings (f : Fcall CharPtr Mem) : Prop :=
  ∀ m, f.msg = some m → ∀ s ∈ m.body.strings, s.strlen < 2 ^ 16

theorem emit_putBody {α : Type} {f : Fcall CharPtr Mem} {t : MsgType} (b : Bytes) (c : Unit → EncM α)
    (hs : ∀ s ∈ (f.body t).strings, s.strlen < 2 ^ 16) (hn : (f.body t).nelem ≤ MAXWELEM) :
    (emit b >>= fun _ => putBody f t >>= c) = (emit (b ++ (f.body t).bytes) >>= c) := by
  cases t with
  | Twalk =>
    have hn' : ¬ f.nwname.toNat > 16 := by simpa [Fcall.body, Body.nelem] using hn
    have hw : ∀ j, 0 ≤ j → j < 0 + f.nwname.toNat → (f.wname j).str.strlen < 2 ^ 32 := fun j _ hj => by
      have := hs (f.wname j).str (mem_map.2 ⟨j, mem_range.2 (by omega), rfl⟩)
      omega
    simp only [putBody, bind_assoc, emit_append_bind, MAXWELEM, hn', ↓reduceIte, emit_pwnames _ _ _ _ hw]
    simp [Fcall.body, Body.bytes, range_eq_range']
  | Rwalk =>
    have hn' : ¬ f.nwqid.toNat > 16 := by simpa [Fcall.body, Body.nelem] using hn
    simp only [putBody, bind_assoc, emit_append_bind, MAXWELEM, hn', ↓reduceIte, emit_pwqids]
    simp [Fcall.body, Body.bytes, range_eq_range']
  | _ =>
    simp only [Fcall.body, Body.strings, mem_cons, not_mem_nil, or_false, forall_eq_or_imp,
      forall_eq, false_implies, implies_true] at hs
    simp (disch := omega) [putBody, pstring_eq, pqid_eq, emit_append_bind, Fcall.body, Body.bytes]

/-- What `putMsg` emits when it is given `size`. -/
def Message.bytesWith (m : Message) (size : UInt32) : Bytes :=
  pbit32 size ++ (pbit8 m.body.type.toByte ++ (pbit16 m.tag ++ m.body.bytes))

theorem Message.length_bytesWith (m : Message) (size : UInt32) : (m.bytesWith size).length = m.size := by
  simp [Message.bytesWith, Message.size]; omega

theorem Message.bytesWith_size (m : Message) : m.bytesWith (UInt32.ofNat m.size) = m.bytes := by
  simp [Message.bytesWith, Message.bytes, Message.header]

section
variable {f : Fcall CharPtr Mem} {m : Message} {ap : Bytes}

theorem putMsg_run (size : UInt32) (h : f.msg = some m) (hs : ∀ s ∈ m.body.strings, s.strlen < 2 ^ 16)
    (hn : m.body.nelem ≤ MAXWELEM) :
    putMsg f size ⟨0, ap, ()⟩ =
      if m.size ≤ ap.length then
        if size.toNat ≠ m.size then .ret0 ⟨m.size, m.bytesWith size ++ ap.drop m.size, ()⟩
        else .ok size ⟨m.size, m.bytesWith size ++ ap.drop m.size, ()⟩
      else .fault := by
  obtain ⟨ht, hm⟩ := Fcall.msg_eq_some h
  have hb : m.body = f.body m.body.type := congrArg Message.body hm
  have htag : f.tag = m.tag := (congrArg Message.tag hm).symm
  rw [hb] at hs hn
  have hrun : putMsg f size = emit (m.bytesWith size) >>= fun _ => here >>= fun p =>
      if size.toNat ≠ p then stop else pure size := by
    simp only [putMsg, ht, emit_append_bind, emit_putBody _ _ hs hn, ← hb]
    simp only [Message.bytesWith, MsgType.toByte_of_ofByte ht, htag]
  rw [hrun, BufM.bind_apply]
  by_cases hlen : m.size ≤ ap.length
  · simp only [emit, m.length_bytesWith, hlen, zero_add, ↓reduceIte, take_zero, nil_append,
      BufM.bind_apply, here]
    by_cases hsz : size.toNat = m.size <;> simp [hsz, stop, BufM.pure_apply]
  · simp only [emit, m.length_bytesWith, hlen, zero_add, ↓reduceIte]

theorem convS2M_fits (h : f.msg = some m) (hs : ∀ s ∈ m.body.strings, s.strlen < 2 ^ 16)
    (hn : m.body.nelem ≤ MAXWELEM) (h32 : m.size < 2 ^ 32) (hap : m.size ≤ ap.length) :
    convS2M f ap = some (UInt32.ofNat m.size, m.bytes ++ ap.drop m.size) := by
  have hsz : sizeS2M f = UInt32.ofNat m.size := by
    apply UInt32.toNat_inj.mp
    rw [toNat_sizeS2M h, UInt32.toNat_ofNat']
  have hnat : (UInt32.ofNat m.size).toNat = m.size := UInt32.toNat_ofNat_of_lt' h32
  have hne : UInt32.ofNat m.size ≠ 0 := by
    intro h0
    rw [h0] at hnat
    simp [Message.size] at hnat
    omega
  have hle : ¬ m.size > ap.length := by omega
  simp only [convS2M, hsz, hne, hle, ↓reduceIte, putMsg_run _ h hs hn, hap, hnat, ne_eq, not_true_eq_false,
    m.bytesWith_size]

end

end Node9
