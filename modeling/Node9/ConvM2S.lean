import Node9.Fcall

/-!
# Decoding (`convM2S.c`)

The decoder walks `p` over the message and fills an `Fcall` whose pointers are offsets into the buffer:
`gstring` shifts a string one byte down, on top of its count, and terminates it there. A `gstring` or
`gqid` that returns nil makes every branch `break` to the test `p == nil` after the `switch`, so it is a
`return 0` here. `Fcall.deref` is what the pointers of a decoded message point to.
-/

namespace Node9
open Buf

abbrev DecM := BufM (Fcall Ptr Ptr)

/-- `f->x = GBIT8(p); p += BIT8SZ`. -/
def rd8 (x : UInt8 → Fcall Ptr Ptr → Fcall Ptr Ptr) : DecM Unit := do
  let b ← fetch BIT8SZ
  assign (x (gbit8 b))

def rd16 (x : UInt16 → Fcall Ptr Ptr → Fcall Ptr Ptr) : DecM Unit := do
  let b ← fetch BIT16SZ
  assign (x (gbit16 b))

def rd32 (x : UInt32 → Fcall Ptr Ptr → Fcall Ptr Ptr) : DecM Unit := do
  let b ← fetch BIT32SZ
  assign (x (gbit32 b))

def rd64 (x : UInt64 → Fcall Ptr Ptr → Fcall Ptr Ptr) : DecM Unit := do
  let b ← fetch BIT64SZ
  assign (x (gbit64 b))

/-- `if(p+n > ep) return 0; f->x = p; p += n`. -/
def rdData (n : Nat) (x : Ptr → Fcall Ptr Ptr → Fcall Ptr Ptr) : DecM Unit := do
  chk n
  let p ← here
  assign (x (some p))
  move n

def gstring (s : Ptr → Fcall Ptr Ptr → Fcall Ptr Ptr) : DecM Unit := do
  chk BIT16SZ
  let b ← fetch BIT16SZ
  let n := (gbit16 b).toNat
  -- `p += BIT16SZ - 1`, from the `p` before the count
  move (-1)
  chk (n + 1)
  memmove 1 n
  poke n 0
  let p ← here
  assign (s (some p))
  move (n + 1 : Nat)

def gqid (q : Qid → Fcall Ptr Ptr → Fcall Ptr Ptr) : DecM Unit := do
  chk QIDSZ
  let type ← fetch BIT8SZ
  let vers ← fetch BIT32SZ
  let path ← fetch BIT64SZ
  assign (q ⟨gbit64 path, gbit32 vers, gbit8 type⟩)

/-- `f->wname[i] = s`. -/
def setWname (i : Nat) (s : Ptr) (f : Fcall Ptr Ptr) : Fcall Ptr Ptr :=
  { f with wname := Function.update f.wname i s }

def setWqid (i : Nat) (q : Qid) (f : Fcall Ptr Ptr) : Fcall Ptr Ptr :=
  { f with wqid := Function.update f.wqid i q }

/-- The loop of `Twalk`, from `i` on, `k` more. -/
def gwnames (i : Nat) : Nat → DecM Unit
  | 0 => pure ()
  | k + 1 => do
    gstring (setWname i)
    gwnames (i + 1) k

def gwqids (i : Nat) : Nat → DecM Unit
  | 0 => pure ()
  | k + 1 => do
    gqid (setWqid i)
    gwqids (i + 1) k

/-- `f->x`, read back in a later test. -/
def field {α : Type} (x : Fcall Ptr Ptr → α) : DecM α := fun s => .ok (x s.r) s

/-- The `switch` of `convM2S`. -/
def getBody : MsgType → DecM Unit
  | .Tversion => do
    chk BIT32SZ
    rd32 fun v f => { f with msize := v }
    gstring fun v f => { f with version := v }
  | .Tflush => do
    chk BIT16SZ
    rd16 fun v f => { f with oldtag := v }
  | .Tauth => do
    chk BIT32SZ
    rd32 fun v f => { f with afid := v }
    gstring fun v f => { f with uname := v }
    gstring fun v f => { f with aname := v }
  | .Tattach => do
    chk BIT32SZ
    rd32 fun v f => { f with fid := v }
    chk BIT32SZ
    rd32 fun v f => { f with afid := v }
    gstring fun v f => { f with uname := v }
    gstring fun v f => { f with aname := v }
  | .Twalk => do
    chk (BIT32SZ + BIT32SZ + BIT16SZ)
    rd32 fun v f => { f with fid := v }
    rd32 fun v f => { f with newfid := v }
    rd16 fun v f => { f with nwname := v }
    let n ← field (·.nwname)
    if n.toNat > MAXWELEM then stop
    else gwnames 0 n.toNat
  | .Topen => do
    chk (BIT32SZ + BIT8SZ)
    rd32 fun v f => { f with fid := v }
    rd8 fun v f => { f with mode := v }
  | .Tcreate => do
    chk BIT32SZ
    rd32 fun v f => { f with fid := v }
    gstring fun v f => { f with name := v }
    chk (BIT32SZ + BIT8SZ)
    rd32 fun v f => { f with perm := v }
    rd8 fun v f => { f with mode := v }
  | .Tread => do
    chk (BIT32SZ + BIT64SZ + BIT32SZ)
    rd32 fun v f => { f with fid := v }
    rd64 fun v f => { f with offset := v.toInt64 }
    rd32 fun v f => { f with count := v }
  | .Twrite => do
    chk (BIT32SZ + BIT64SZ + BIT32SZ)
    rd32 fun v f => { f with fid := v }
    rd64 fun v f => { f with offset := v.toInt64 }
    rd32 fun v f => { f with count := v }
    let n ← field (·.count)
    rdData n.toNat fun v f => { f with data := v }
  | .Tclunk | .Tremove => do
    chk BIT32SZ
    rd32 fun v f => { f with fid := v }
  | .Tstat => do
    chk BIT32SZ
    rd32 fun v f => { f with fid := v }
  | .Twstat => do
    chk (BIT32SZ + BIT16SZ)
    rd32 fun v f => { f with fid := v }
    rd16 fun v f => { f with nstat := v }
    let n ← field (·.nstat)
    rdData n.toNat fun v f => { f with stat := v }
  | .Rversion => do
    chk BIT32SZ
    rd32 fun v f => { f with msize := v }
    gstring fun v f => { f with version := v }
  | .Rerror => gstring fun v f => { f with ename := v }
  | .Rflush => pure ()
  | .Rauth => gqid fun q f => { f with aqid := q }
  | .Rattach => gqid fun q f => { f with qid := q }
  | .Rwalk => do
    chk BIT16SZ
    rd16 fun v f => { f with nwqid := v }
    let n ← field (·.nwqid)
    if n.toNat > MAXWELEM then stop
    else gwqids 0 n.toNat
  | .Ropen | .Rcreate => do
    gqid fun q f => { f with qid := q }
    chk BIT32SZ
    rd32 fun v f => { f with iounit := v }
  | .Rread => do
    chk BIT32SZ
    rd32 fun v f => { f with count := v }
    let n ← field (·.count)
    rdData n.toNat fun v f => { f with data := v }
  | .Rwrite => do
    chk BIT32SZ
    rd32 fun v f => { f with count := v }
  | .Rclunk | .Rremove => pure ()
  | .Rstat => do
    chk BIT16SZ
    rd16 fun v f => { f with nstat := v }
    let n ← field (·.nstat)
    rdData n.toNat fun v f => { f with stat := v }
  | .Rwstat => pure ()

def getMsg : DecM UInt32 := do
  chk (BIT32SZ + BIT8SZ + BIT16SZ)
  let b ← fetch BIT32SZ
  let size := gbit32 b
  if size.toNat < BIT32SZ + BIT8SZ + BIT16SZ then stop
  else
    rd8 fun v f => { f with type := v }
    rd16 fun v f => { f with tag := v }
    match MsgType.ofByte (← field (·.type)) with
    | none => stop
    | some t =>
      getBody t
      -- `if(p>ep) return 0`
      chk 0
      if size.toNat = (← here) then pure size
      else stop

/-- `convM2S(ap, nap, f)` for a buffer of `nap = ap.length` bytes: the value returned, with the final
`p`, buffer and `*f`; `none` if a byte outside the buffer was touched. -/
def convM2S (ap : Bytes) (f : Fcall Ptr Ptr) : Option (UInt32 × Cur (Fcall Ptr Ptr)) :=
  match getMsg ⟨0, ap, f⟩ with
  | .ok n s => some (n, s)
  | .ret0 s => some (0, s)
  | .fault => none

/-! ### What the pointers of a decoded message point to -/

def cstrAt (buf : Bytes) (o : Nat) : CStr :=
  ⟨(buf.drop o).takeWhile (· ≠ 0), fun h => by simpa using List.mem_takeWhile_imp h⟩

def memAt (buf : Bytes) (o : Nat) : Mem := fun i => buf.getD (o + i) 0

namespace Fcall

def deref (buf : Bytes) (f : Fcall Ptr Ptr) : Fcall CharPtr Mem :=
  { f with
    version := f.version.map (cstrAt buf)
    ename := f.ename.map (cstrAt buf)
    uname := f.uname.map (cstrAt buf)
    aname := f.aname.map (cstrAt buf)
    name := f.name.map (cstrAt buf)
    wname := fun i => (f.wname i).map (cstrAt buf)
    data := f.data.elim (fun _ => 0) (memAt buf)
    stat := f.stat.elim (fun _ => 0) (memAt buf) }

end Fcall

/-! ### The decoder stays inside the buffer -/

theorem wp_field {α : Type} {x : Fcall Ptr Ptr → α} {Q : α → Cur (Fcall Ptr Ptr) → Prop}
    {R : Cur (Fcall Ptr Ptr) → Prop} {s : Cur (Fcall Ptr Ptr)} : wp (field x) Q R s ↔ Q (x s.r) s := Iff.rfl

section
variable {k : Nat}

theorem leaves_field {α : Type} {x : Fcall Ptr Ptr → α} : Leaves k (field x) k := fun _ hs => ⟨rfl, hs⟩

theorem leaves_rd8 {x} (hk : BIT8SZ ≤ k) : Leaves k (rd8 x) (k - BIT8SZ) :=
  (Leaves.fetch hk).bind fun _ => .assign

theorem leaves_rd16 {x} (hk : BIT16SZ ≤ k) : Leaves k (rd16 x) (k - BIT16SZ) :=
  (Leaves.fetch hk).bind fun _ => .assign

theorem leaves_rd32 {x} (hk : BIT32SZ ≤ k) : Leaves k (rd32 x) (k - BIT32SZ) :=
  (Leaves.fetch hk).bind fun _ => .assign

theorem leaves_chk_rd32 {β : Type} {x} {n j : Nat} {m : Unit → DecM β} (hn : BIT32SZ ≤ n)
    (hm : ∀ u, Leaves (n - BIT32SZ) (m u) j) : Leaves k (chk n >>= fun _ => rd32 x >>= m) j :=
  Leaves.chk.bind fun _ => (leaves_rd32 hn).bind hm

theorem leaves_rd64 {x} (hk : BIT64SZ ≤ k) : Leaves k (rd64 x) (k - BIT64SZ) :=
  (Leaves.fetch hk).bind fun _ => .assign

theorem leaves_rdData (n : Nat) (x) : Leaves k (rdData n x) 0 := by
  refine Leaves.chk.bind fun _ => Leaves.here.bind fun _ => Leaves.assign.bind fun _ => ?_
  exact (Leaves.move (le_refl n)).mono zero_le

theorem leaves_gqid (q) : Leaves k (gqid q) 0 := by
  refine Leaves.chk.bind fun _ => (Leaves.fetch (by decide)).bind fun _ => ?_
  exact (Leaves.fetch (by decide)).bind fun _ => (Leaves.fetch (by decide)).bind fun _ => .assign

theorem leaves_gstring (x) : Leaves k (gstring x) 0 := by
  refine Leaves.chk.bind fun _ s hs => ?_
  simp only [wp_bind, wp_fetch, wp_move, wp_chk, wp_memmove_poke, wp_here, wp_assign]
  generalize (gbit16 _).toNat = n
  have hp : (((s.p + BIT16SZ : Nat) : Int) + -1).toNat = s.p + 1 := by simp only [BIT16SZ]; omega
  rw [hp]
  refine ⟨hs, fun hn => ⟨hn, ?_, ?_⟩, fun _ => trivial⟩
  · simp only [List.length_append, List.length_take, List.length_drop, List.length_cons]
    omega
  · simp only [List.length_append, List.length_take, List.length_drop, List.length_cons]
    omega

theorem leaves_gwnames (i n : Nat) : Leaves 0 (gwnames i n) 0 := by
  induction n generalizing i with
  | zero => exact .pure ()
  | succ n ih => exact (leaves_gstring _).bind fun _ => ih (i + 1)

theorem leaves_gwqids (i n : Nat) : Leaves 0 (gwqids i n) 0 := by
  induction n generalizing i with
  | zero => exact .pure ()
  | succ n ih => exact (leaves_gqid _).bind fun _ => ih (i + 1)

end

theorem leaves_getBody (t : MsgType) : Leaves 0 (getBody t) 0 := by
  cases t with
  | Tversion | Rversion => exact leaves_chk_rd32 (by decide) fun _ => leaves_gstring _
  | Tauth =>
    refine leaves_chk_rd32 (by decide) fun _ => ?_
    exact (leaves_gstring _).bind fun _ => leaves_gstring _
  | Tattach =>
    refine leaves_chk_rd32 (by decide) fun _ => ?_
    refine leaves_chk_rd32 (by decide) fun _ => ?_
    exact (leaves_gstring _).bind fun _ => leaves_gstring _
  | Tflush => exact Leaves.chk.bind fun _ => leaves_rd16 (by decide)
  | Twalk =>
    refine leaves_chk_rd32 (by decide) fun _ => ?_
    refine (leaves_rd32 (by decide)).bind fun _ => (leaves_rd16 (by decide)).bind fun _ => ?_
    exact leaves_field.bind fun n => .ite .stop (leaves_gwnames 0 n.toNat)
  | Rwalk =>
    refine Leaves.chk.bind fun _ => (leaves_rd16 (by decide)).bind fun _ => ?_
    exact leaves_field.bind fun n => .ite .stop (leaves_gwqids 0 n.toNat)
  | Topen =>
    exact leaves_chk_rd32 (by decide) fun _ => leaves_rd8 (by decide)
  | Tcreate =>
    refine leaves_chk_rd32 (by decide) fun _ => (leaves_gstring _).bind fun _ => ?_
    exact leaves_chk_rd32 (by decide) fun _ => leaves_rd8 (by decide)
  | Tread =>
    refine leaves_chk_rd32 (by decide) fun _ => ?_
    exact (leaves_rd64 (by decide)).bind fun _ => leaves_rd32 (by decide)
  | Twrite =>
    refine leaves_chk_rd32 (by decide) fun _ => ?_
    refine (leaves_rd64 (by decide)).bind fun _ => (leaves_rd32 (by decide)).bind fun _ => ?_
    exact leaves_field.bind fun n => leaves_rdData n.toNat _
  | Twstat =>
    refine leaves_chk_rd32 (by decide) fun _ => ?_
    exact (leaves_rd16 (by decide)).bind fun _ => leaves_field.bind fun n => leaves_rdData n.toNat _
  | Rread =>
    refine leaves_chk_rd32 (by decide) fun _ => ?_
    exact leaves_field.bind fun n => leaves_rdData n.toNat _
  | Rstat =>
    refine Leaves.chk.bind fun _ => (leaves_rd16 (by decide)).bind fun _ => ?_
    exact leaves_field.bind fun n => leaves_rdData n.toNat _
  | Tclunk | Tremove | Tstat | Rwrite => exact Leaves.chk.bind fun _ => leaves_rd32 (by decide)
  | Rerror => rw [getBody]; exact leaves_gstring _
  | Rauth | Rattach => rw [getBody]; exact leaves_gqid _
  | Ropen | Rcreate => exact (leaves_gqid _).bind fun _ => Leaves.chk.bind fun _ => leaves_rd32 (by decide)
  | Rflush | Rclunk | Rremove | Rwstat => exact .pure ()

/-- After the size field: the rest stays inside and, unless it returns 0, ends where `size` says. -/
theorem wp_getMsg (ap : Bytes) (f : Fcall Ptr Ptr) :
    wp getMsg (fun n s => s.buf.length = ap.length ∧ n = gbit32 (ap.take BIT32SZ) ∧ s.p = n.toNat ∧
        s.p ≤ ap.length)
      (fun s => s.buf.length = ap.length) ⟨0, ap, f⟩ := by
  refine (wp_bind _ _).2 ((wp_chk _).2 ⟨fun h7 => ?_, fun _ => rfl⟩)
  have h4 : 0 + BIT32SZ + (BIT8SZ + BIT16SZ) ≤ ap.length := h7
  refine (wp_bind _ _).2 ((wp_fetch _).2 ⟨by show 0 + BIT32SZ ≤ ap.length; omega, ?_⟩)
  refine (wp_ite _ _).2 ⟨fun _ => rfl, fun _ => ?_⟩
  refine (leaves_rd8 (by decide)).wp_bind h4 (fun _ h => h) fun _ s₁ hlen₁ hp₁ => ?_
  refine (leaves_rd16 (by decide)).wp_bind hp₁ (fun _ h => h.trans hlen₁) fun _ s₂ hlen₂ hp₂ => ?_
  have hlen : s₂.buf.length = ap.length := hlen₂.trans hlen₁
  refine (wp_bind _ _).2 ?_
  show wp (match MsgType.ofByte s₂.r.type with | none => _ | some t => _) _ _ s₂
  cases MsgType.ofByte s₂.r.type with
  | none => exact hlen
  | some t =>
    refine (leaves_getBody t).wp_bind (le_trans (Nat.le_add_right _ _) hp₂) (fun _ h => h.trans hlen)
      fun _ s₃ hlen₃ hp₃ => ?_
    refine Leaves.chk.wp_bind hp₃ (fun _ h => h.trans (hlen₃.trans hlen)) fun _ s₄ hlen₄ hp₄ => ?_
    have hlen' : s₄.buf.length = ap.length := hlen₄.trans (hlen₃.trans hlen)
    refine (wp_bind _ _).2 ((wp_ite _ _).2 ⟨fun hend => ?_, fun _ => hlen'⟩)
    exact ⟨hlen', rfl, hend.symm, hlen' ▸ hp₄⟩

/-- `convM2S` touches only the buffer it is given. It returns the size field if that is at most `nap` and
the message ends there, and 0 otherwise. -/
theorem convM2S_inside (ap : Bytes) (f : Fcall Ptr Ptr) :
    ∃ n s, convM2S ap f = some (n, s) ∧ s.buf.length = ap.length ∧
      (n = 0 ∨ n = gbit32 (ap.take BIT32SZ) ∧ n.toNat ≤ ap.length ∧ s.p = n.toNat) := by
  have hwp := wp_getMsg ap f
  unfold convM2S
  unfold wp at hwp
  cases hrun : getMsg ⟨0, ap, f⟩ with
  | ok n s =>
    rw [hrun] at hwp
    obtain ⟨hlen, hn, hp, hle⟩ := hwp
    exact ⟨n, s, rfl, hlen, .inr ⟨hn, hp ▸ hle, hp⟩⟩
  | ret0 s =>
    rw [hrun] at hwp
    exact ⟨0, s, rfl, hwp, .inl rfl⟩
  | fault => rw [hrun] at hwp; exact hwp.elim

end Node9
