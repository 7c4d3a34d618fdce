import Node9.ConvS2M
import Node9.ConvM2S

/-!
# Decoding what was encoded

The decoder is followed over a buffer that holds a layout: before each step the buffer is `d` up to `p`
and the rest of the layout from `p` on (`At`). `gstring` rewrites the two bytes of a count, so `d` is not
the layout's beginning; but it only ever grows at its end, and what a pointer into `d` points to is fixed
once the pointer is set (`StrIn`, `DataIn`).
-/

namespace Node9
open Buf List Function Option

/-- The string at offset `o` is `v`, whatever follows `d`. -/
def StrIn (d : Bytes) (o : Nat) (v : CStr) : Prop := ∀ y, cstrAt (d ++ y) o = v

/-- The bytes at offset `o` are `b`, whatever follows `d`. -/
def DataIn (d : Bytes) (o : Nat) (b : Bytes) : Prop := ∀ y, (memAt (d ++ y) o).read b.length = b

theorem StrIn.append {d u : Bytes} {o : Nat} {v : CStr} (h : StrIn d o v) : StrIn (d ++ u) o v := by
  intro y
  rw [append_assoc]
  exact h (u ++ y)

theorem StrIn.str {d : Bytes} {o : Nat} {v : CStr} (h : StrIn d o v) (y : Bytes) :
    CharPtr.str (Option.map (cstrAt (d ++ y)) (some o)) = v := h y

theorem strIn_shifted (d : Bytes) (a : UInt8) (v : CStr) : StrIn (d ++ a :: (v.bytes ++ [0])) (d.length + 1) v := by
  intro y
  apply CStr.ext
  have hv : ∀ b ∈ v.bytes, decide (b ≠ 0) = true := by
    intro b hb
    exact decide_eq_true fun h => v.nul_free (h ▸ hb)
  simp only [cstrAt, append_assoc, cons_append, nil_append]
  rw [← drop_drop, drop_left, drop_succ_cons, drop_zero,
    takeWhile_append_of_pos hv]
  simp

theorem dataIn_append (d b : Bytes) : DataIn (d ++ b) d.length b := by
  intro y
  refine ext_getElem (by simp) fun i h₁ h₂ => ?_
  simp only [Mem.read, memAt, getElem_map, getElem_range, append_assoc]
  rw [getD_eq_getElem?_getD, List.getElem?_append_right (by omega), Nat.add_sub_cancel_left,
    List.getElem?_append_left h₂, List.getElem?_eq_getElem h₂, getD_some]

section
variable {s : Cur (Fcall Ptr Ptr)} {d t : Bytes} {R : Cur (Fcall Ptr Ptr) → Prop}
variable {Q : Unit → Cur (Fcall Ptr Ptr) → Prop}

theorem At.rd8 {x} {v : UInt8} (h : At s d (pbit8 v ++ t))
    (hQ : ∀ s', At s' (d ++ pbit8 v) t → s'.r = x v s.r → Q () s') : wp (rd8 x) Q R s := by
  refine (wp_bind _ _).2 (h.fetch rfl fun s' h' hr => (wp_assign _).2 (hQ _ ⟨h'.buf, h'.p⟩ ?_))
  rw [gbit8_pbit8, hr]

theorem At.rd16 {x} {v : UInt16} (h : At s d (pbit16 v ++ t))
    (hQ : ∀ s', At s' (d ++ pbit16 v) t → s'.r = x v s.r → Q () s') : wp (rd16 x) Q R s := by
  refine (wp_bind _ _).2 (h.fetch rfl fun s' h' hr => (wp_assign _).2 (hQ _ ⟨h'.buf, h'.p⟩ ?_))
  rw [gbit16_pbit16, hr]

theorem At.rd32 {x} {v : UInt32} (h : At s d (pbit32 v ++ t))
    (hQ : ∀ s', At s' (d ++ pbit32 v) t → s'.r = x v s.r → Q () s') : wp (rd32 x) Q R s := by
  refine (wp_bind _ _).2 (h.fetch rfl fun s' h' hr => (wp_assign _).2 (hQ _ ⟨h'.buf, h'.p⟩ ?_))
  rw [gbit32_pbit32, hr]

theorem At.rd64 {x} {v : UInt64} (h : At s d (pbit64 v ++ t))
    (hQ : ∀ s', At s' (d ++ pbit64 v) t → s'.r = x v s.r → Q () s') : wp (rd64 x) Q R s := by
  refine (wp_bind _ _).2 (h.fetch rfl fun s' h' hr => (wp_assign _).2 (hQ _ ⟨h'.buf, h'.p⟩ ?_))
  rw [gbit64_pbit64, hr]

theorem At.gqid {x} {q : Qid} (h : At s d (qidBytes q ++ t))
    (hQ : ∀ s', At s' (d ++ qidBytes q) t → s'.r = x q s.r → Q () s') : wp (gqid x) Q R s := by
  refine (wp_bind _ _).2 (h.chk (by simp) ?_)
  simp only [qidBytes, append_assoc] at h
  refine (wp_bind _ _).2 (h.fetch rfl fun s₁ h₁ r₁ => ?_)
  refine (wp_bind _ _).2 (h₁.fetch rfl fun s₂ h₂ r₂ => ?_)
  refine (wp_bind _ _).2 (h₂.fetch rfl fun s₃ h₃ r₃ => (wp_assign _).2 (hQ _ ⟨?_, ?_⟩ ?_))
  · simp only [h₃.buf, qidBytes, append_assoc]
  · simp only [h₃.p, qidBytes, append_assoc]
  · simp only [gbit8_pbit8, gbit32_pbit32, gbit64_pbit64, r₃, r₂, r₁]

theorem At.rdData {x} {b : Bytes} {n : Nat} (h : At s d (b ++ t)) (hn : n = b.length)
    (hQ : ∀ s', At s' (d ++ b) t → s'.r = x (some d.length) s.r → Q () s') : wp (rdData n x) Q R s := by
  refine (wp_bind _ _).2 (h.chk (by simp [hn]) ?_)
  simp only [wp_bind, wp_here, wp_assign, wp_move]
  refine hQ _ ⟨?_, ?_⟩ ?_
  · simp [h.buf]
  · show ((s.p : Int) + n).toNat = (d ++ b).length
    rw [h.p, hn, length_append]
    omega
  · simp only [h.p]

theorem At.gstring {x} {v : CStr} (hv : v.strlen < 2 ^ 16) (h : At s d (strBytes v ++ t))
    (hQ : ∀ s' u o, At s' (d ++ u) t → u.length = 2 + v.strlen → StrIn (d ++ u) o v →
      s'.r = x (some o) s.r → Q () s') : wp (gstring x) Q R s := by
  have hn : (gbit16 (pbit16 (UInt16.ofNat v.strlen))).toNat = v.strlen := by
    rw [gbit16_pbit16]
    exact UInt16.toNat_ofNat_of_lt' hv
  refine (wp_bind _ _).2 (h.chk (by simp; omega) ?_)
  simp only [strBytes, append_assoc] at h
  refine (wp_bind _ _).2 (h.fetch rfl fun s₁ h₁ r₁ => ?_)
  have hp : ((s₁.p : Int) + -1).toNat = d.length + 1 := by
    rw [h₁.p, length_append, length_pbit16]
    omega
  -- the buffer is `d`, the two bytes of the count, the string and `t`; `p` is at the second byte
  obtain ⟨a, b, hbuf⟩ : ∃ a b, s₁.buf = (d ++ [a]) ++ b :: (v.bytes ++ t) :=
    ⟨(UInt16.ofNat v.strlen).toUInt8, (UInt16.ofNat v.strlen >>> 8).toUInt8, by rw [h₁.buf]; simp [pbit16]⟩
  have hd : (d ++ [a]).length = d.length + 1 := by simp
  have hdrop : ∀ k, s₁.buf.drop (d.length + 1 + k) = (b :: (v.bytes ++ t)).drop k := by
    intro k
    rw [hbuf, ← hd, ← drop_drop, drop_left]
  have hlen : d.length + 1 + v.strlen + 1 ≤ s₁.buf.length := by
    simp only [hbuf, length_append, length_cons, length_nil, CStr.strlen]
    omega
  simp only [wp_bind, wp_move, wp_chk, wp_memmove_poke, wp_here, wp_assign, hn, hp]
  refine ⟨fun _ => ⟨hlen, ?_⟩, fun hlt => absurd hlen (by omega)⟩
  refine hQ _ (a :: (v.bytes ++ [0])) (d.length + 1) ⟨?_, ?_⟩ ?_ (strIn_shifted d a v) (by rw [r₁])
  · rw [add_assoc (d.length + 1), hdrop, hdrop, hbuf, ← hd, take_left]
    simp [CStr.strlen]
  · simp only [length_append, length_cons, length_nil, CStr.strlen]
    omega
  · simp only [length_append, length_cons, length_nil, CStr.strlen]
    omega

/-! ### The loops of the walks -/

theorem At.gwnames {ws : List CStr} (hw : ∀ w ∈ ws, w.strlen < 2 ^ 16) (i : Nat)
    (h : At s d (ws.flatMap strBytes ++ t))
    (hQ : ∀ s' u w', At s' (d ++ u) t → u.length = (ws.flatMap strBytes).length →
      s'.r = { s.r with wname := w' } → (∀ j < i, w' j = s.r.wname j) →
      (∀ y, (List.range' i ws.length).map (fun j => CharPtr.str ((w' j).map (cstrAt (d ++ u ++ y)))) = ws) →
      Q () s') :
    wp (gwnames i ws.length) Q R s := by
  induction ws generalizing s d i with
  | nil =>
    refine (wp_pure ()).2 (hQ s [] s.r.wname ⟨?_, ?_⟩ rfl rfl (fun _ _ => rfl) fun _ => rfl)
    · simpa using h.buf
    · simpa using h.p
  | cons w ws ih =>
    simp only [flatMap_cons, append_assoc] at h
    refine (wp_bind _ _).2 (At.gstring (hw w (by simp)) h fun s₁ u₁ o h₁ hu₁ hstr r₁ => ?_)
    refine ih (fun w' hw' => hw w' (by simp [hw'])) (i + 1) h₁ fun s₂ u₂ w₂ h₂ hu₂ r₂ hlt hmap => ?_
    have hi : w₂ i = some o := by
      rw [hlt i (Nat.lt_succ_self i), r₁]
      exact update_self i (some o) s.r.wname
    refine hQ s₂ (u₁ ++ u₂) w₂ (append_assoc d u₁ u₂ ▸ h₂) ?_ ?_ ?_ ?_
    · simp only [length_append, hu₁, hu₂, flatMap_cons, length_strBytes]
    · rw [r₂, r₁]
      rfl
    · intro j hj
      rw [hlt j (by omega), r₁]
      exact update_of_ne (by omega) _ _
    intro y
    have hw₁ : cstrAt (d ++ (u₁ ++ u₂) ++ y) o = w := by
      have := hstr (u₂ ++ y)
      simpa only [append_assoc] using this
    rw [length_cons, range'_succ, map_cons, hi]
    refine congrArg₂ List.cons hw₁ ?_
    simpa only [append_assoc] using hmap y

theorem At.gwqids {qs : List Qid} (i : Nat) (h : At s d (qs.flatMap qidBytes ++ t))
    (hQ : ∀ s' q', At s' (d ++ qs.flatMap qidBytes) t → s'.r = { s.r with wqid := q' } →
      (∀ j < i, q' j = s.r.wqid j) → (List.range' i qs.length).map q' = qs → Q () s') :
    wp (gwqids i qs.length) Q R s := by
  induction qs generalizing s d i with
  | nil =>
    refine (wp_pure ()).2 (hQ s s.r.wqid ⟨?_, ?_⟩ rfl (fun _ _ => rfl) rfl)
    · simpa using h.buf
    · simpa using h.p
  | cons q qs ih =>
    simp only [flatMap_cons, append_assoc] at h
    refine (wp_bind _ _).2 (At.gqid h fun s₁ h₁ r₁ => ?_)
    refine ih (i + 1) h₁ fun s₂ q₂ h₂ r₂ hlt hmap => ?_
    have hi : q₂ i = q := by
      rw [hlt i (Nat.lt_succ_self i), r₁]
      exact update_self i q s.r.wqid
    refine hQ s₂ q₂ (append_assoc d _ _ ▸ h₂) ?_ ?_ ?_
    · rw [r₂, r₁]
      rfl
    · intro j hj
      rw [hlt j (by omega), r₁]
      exact update_of_ne (by omega) _ _
    · rw [length_cons, range'_succ, map_cons, hi, hmap]

/-- The branch has consumed `b.bytes` and left `b` in the fields that the type carries. -/
def BodyDone (s : Cur (Fcall Ptr Ptr)) (d t : Bytes) (b : Body) (s' : Cur (Fcall Ptr Ptr)) : Prop :=
  ∃ d', At s' d' t ∧ d'.length = d.length + b.bytes.length ∧ s'.r.type = s.r.type ∧ s'.r.tag = s.r.tag ∧
    ∀ y, (s'.r.deref (d' ++ y)).body b.type = b

attribute [local simp] Fcall.body Body.bytes Body.strings

theorem At.getBody_Twalk {f : Fcall CharPtr Mem} (hs : ∀ v ∈ (f.body .Twalk).strings, v.strlen < 2 ^ 16)
    (hn : (f.body .Twalk).nelem ≤ MAXWELEM)
    (h : At s d ((f.body .Twalk).bytes ++ t)) :
    wp (getBody .Twalk) (fun _ => BodyDone s d t (f.body .Twalk)) (fun _ => False) s := by
  simp only [Fcall.body, Body.bytes, append_assoc] at h
  obtain ⟨ws, hws⟩ : ∃ ws, ws = (List.range f.nwname.toNat).map fun i => (f.wname i).str := ⟨_, rfl⟩
  have hlen : (UInt16.ofNat ws.length).toNat = ws.length := by simp [hws]
  have hn' : ¬ (UInt16.ofNat ws.length).toNat > MAXWELEM := by
    rw [hlen, hws]
    exact Nat.not_lt.2 hn
  have hs' : ∀ w ∈ ws, w.strlen < 2 ^ 16 := by
    rw [hws]
    exact hs
  rw [← hws] at h
  refine (wp_bind _ _).2 (h.chk (by simp; omega) ((wp_bind _ _).2 (At.rd32 h fun s₁ h₁ r₁ => ?_)))
  refine (wp_bind _ _).2 (At.rd32 h₁ fun s₂ h₂ r₂ => (wp_bind _ _).2 (At.rd16 h₂ fun s₃ h₃ r₃ => ?_))
  have hnw : s₃.r.nwname = UInt16.ofNat ws.length := by rw [r₃]
  rw [wp_bind, wp_field, hnw, if_neg hn', hlen]
  refine At.gwnames hs' 0 h₃ fun s₄ u w' h₄ hu r₄ _ hmap => ?_
  refine ⟨_, h₄, ?_, by rw [r₄, r₃, r₂, r₁], by rw [r₄, r₃, r₂, r₁], fun y => ?_⟩
  · simp [-length_flatMap, hu, hws]
  · have hmap := hmap y
    simp only [Fcall.body, Body.type, Fcall.deref, r₄, r₃, r₂, r₁, hlen, range_eq_range', hmap]
    rw [hws, range_eq_range']

theorem At.getBody_Rwalk {f : Fcall CharPtr Mem} (hn : (f.body .Rwalk).nelem ≤ MAXWELEM)
    (h : At s d ((f.body .Rwalk).bytes ++ t)) :
    wp (getBody .Rwalk) (fun _ => BodyDone s d t (f.body .Rwalk)) (fun _ => False) s := by
  simp only [Fcall.body, Body.bytes, append_assoc] at h
  obtain ⟨qs, hqs⟩ : ∃ qs, qs = (List.range f.nwqid.toNat).map f.wqid := ⟨_, rfl⟩
  have hlen : (UInt16.ofNat qs.length).toNat = qs.length := by simp [hqs]
  have hn' : ¬ (UInt16.ofNat qs.length).toNat > MAXWELEM := by
    rw [hlen, hqs]
    exact Nat.not_lt.2 hn
  rw [← hqs] at h
  refine (wp_bind _ _).2 (h.chk (by simp) ((wp_bind _ _).2 (At.rd16 h fun s₁ h₁ r₁ => ?_)))
  have hnw : s₁.r.nwqid = UInt16.ofNat qs.length := by rw [r₁]
  rw [wp_bind, wp_field, hnw, if_neg hn', hlen]
  refine At.gwqids 0 h₁ fun s₂ q' h₂ r₂ _ hmap => ?_
  refine ⟨_, h₂, ?_, by rw [r₂, r₁], by rw [r₂, r₁], fun y => ?_⟩
  · simp [-length_flatMap, hqs]
  · simp only [Fcall.body, Body.type, Fcall.deref, r₂, r₁, hlen, range_eq_range', hmap]
    rw [hqs, range_eq_range']

theorem At.getBody_Twrite {f : Fcall CharPtr Mem}
    (h : At s d ((f.body .Twrite).bytes ++ t)) :
    wp (getBody .Twrite) (fun _ => BodyDone s d t (f.body .Twrite)) (fun _ => False) s := by
  simp only [Fcall.body, Body.bytes, append_assoc] at h
  obtain ⟨b, hb⟩ : ∃ b, b = f.data.read f.count.toNat := ⟨_, rfl⟩
  have hlen : (UInt32.ofNat b.length).toNat = b.length := by simp [hb]
  rw [← hb] at h
  refine (wp_bind _ _).2 (h.chk (by simp; omega) ((wp_bind _ _).2 (At.rd32 h fun s₁ h₁ r₁ => ?_)))
  refine (wp_bind _ _).2 (At.rd64 h₁ fun s₂ h₂ r₂ => (wp_bind _ _).2 (At.rd32 h₂ fun s₃ h₃ r₃ => ?_))
  have hcount : s₃.r.count.toNat = b.length := by rw [r₃, hlen]
  refine (wp_bind _ _).2 (At.rdData h₃ hcount fun s₄ h₄ r₄ => ?_)
  refine ⟨_, h₄, ?_, by rw [r₄, r₃, r₂, r₁], by rw [r₄, r₃, r₂, r₁], fun y => ?_⟩
  · simp [hb]
  · have hd := dataIn_append (d ++ pbit32 f.fid ++ pbit64 f.offset.toUInt64 ++ pbit32 (UInt32.ofNat b.length)) b y
    simp only [Fcall.body, Body.type, Fcall.deref, r₄, r₃, r₂, r₁, hlen, elim_some, hd]
    rw [hb, Int64.toInt64_toUInt64]

theorem At.getBody_Rread {f : Fcall CharPtr Mem}
    (h : At s d ((f.body .Rread).bytes ++ t)) :
    wp (getBody .Rread) (fun _ => BodyDone s d t (f.body .Rread)) (fun _ => False) s := by
  simp only [Fcall.body, Body.bytes, append_assoc] at h
  obtain ⟨b, hb⟩ : ∃ b, b = f.data.read f.count.toNat := ⟨_, rfl⟩
  have hlen : (UInt32.ofNat b.length).toNat = b.length := by simp [hb]
  rw [← hb] at h
  refine (wp_bind _ _).2 (h.chk (by simp) ((wp_bind _ _).2 (At.rd32 h fun s₁ h₁ r₁ => ?_)))
  have hcount : s₁.r.count.toNat = b.length := by rw [r₁, hlen]
  refine (wp_bind _ _).2 (At.rdData h₁ hcount fun s₂ h₂ r₂ => ?_)
  refine ⟨_, h₂, ?_, by rw [r₂, r₁], by rw [r₂, r₁], fun y => ?_⟩
  · simp [hb]
  · have hd := dataIn_append (d ++ pbit32 (UInt32.ofNat b.length)) b y
    simp only [Fcall.body, Body.type, Fcall.deref, r₂, r₁, hlen, elim_some, hd]
    rw [hb]

theorem At.getBody_Twstat {f : Fcall CharPtr Mem}
    (h : At s d ((f.body .Twstat).bytes ++ t)) :
    wp (getBody .Twstat) (fun _ => BodyDone s d t (f.body .Twstat)) (fun _ => False) s := by
  simp only [Fcall.body, Body.bytes, append_assoc] at h
  obtain ⟨b, hb⟩ : ∃ b, b = f.stat.read f.nstat.toNat := ⟨_, rfl⟩
  have hlen : (UInt16.ofNat b.length).toNat = b.length := by simp [hb]
  rw [← hb] at h
  refine (wp_bind _ _).2 (h.chk (by simp; omega) ((wp_bind _ _).2 (At.rd32 h fun s₁ h₁ r₁ => ?_)))
  refine (wp_bind _ _).2 (At.rd16 h₁ fun s₂ h₂ r₂ => ?_)
  have hcount : s₂.r.nstat.toNat = b.length := by rw [r₂, hlen]
  refine (wp_bind _ _).2 (At.rdData h₂ hcount fun s₃ h₃ r₃ => ?_)
  refine ⟨_, h₃, ?_, by rw [r₃, r₂, r₁], by rw [r₃, r₂, r₁], fun y => ?_⟩
  · simp [hb]
  · have hd := dataIn_append (d ++ pbit32 f.fid ++ pbit16 (UInt16.ofNat b.length)) b y
    simp only [Fcall.body, Body.type, Fcall.deref, r₃, r₂, r₁, hlen, elim_some, hd]
    rw [hb]

theorem At.getBody_Rstat {f : Fcall CharPtr Mem}
    (h : At s d ((f.body .Rstat).bytes ++ t)) :
    wp (getBody .Rstat) (fun _ => BodyDone s d t (f.body .Rstat)) (fun _ => False) s := by
  simp only [Fcall.body, Body.bytes, append_assoc] at h
  obtain ⟨b, hb⟩ : ∃ b, b = f.stat.read f.nstat.toNat := ⟨_, rfl⟩
  have hlen : (UInt16.ofNat b.length).toNat = b.length := by simp [hb]
  rw [← hb] at h
  refine (wp_bind _ _).2 (h.chk (by simp) ((wp_bind _ _).2 (At.rd16 h fun s₁ h₁ r₁ => ?_)))
  have hcount : s₁.r.nstat.toNat = b.length := by rw [r₁, hlen]
  refine (wp_bind _ _).2 (At.rdData h₁ hcount fun s₂ h₂ r₂ => ?_)
  refine ⟨_, h₂, ?_, by rw [r₂, r₁], by rw [r₂, r₁], fun y => ?_⟩
  · simp [hb]
  · have hd := dataIn_append (d ++ pbit16 (UInt16.ofNat b.length)) b y
    simp only [Fcall.body, Body.type, Fcall.deref, r₂, r₁, hlen, elim_some, hd]
    rw [hb]

theorem At.getBody {f : Fcall CharPtr Mem} {ty : MsgType} (hs : ∀ v ∈ (f.body ty).strings, v.strlen < 2 ^ 16)
    (hn : (f.body ty).nelem ≤ MAXWELEM) (h : At s d ((f.body ty).bytes ++ t)) :
    wp (getBody ty) (fun _ => BodyDone s d t (f.body ty)) (fun _ => False) s := by
  cases ty
  case Twalk => exact At.getBody_Twalk hs hn h
  case Rwalk => exact At.getBody_Rwalk hn h
  case Twrite => exact At.getBody_Twrite h
  case Rread => exact At.getBody_Rread h
  case Twstat => exact At.getBody_Twstat h
  case Rstat => exact At.getBody_Rstat h
  all_goals simp only [Fcall.body, Body.bytes, append_assoc] at h
  case Tversion | Rversion =>
    refine (wp_bind _ _).2 (h.chk (by simp) ((wp_bind _ _).2 (At.rd32 h fun s₁ h₁ r₁ => ?_)))
    refine At.gstring (hs _ (by simp)) h₁ fun s₂ u o h₂ hu hv r₂ => ?_
    refine ⟨_, h₂, by simp [hu], by rw [r₂, r₁], by rw [r₂, r₁], fun y => ?_⟩
    simp only [Fcall.body, Body.type, Fcall.deref, r₂, r₁, hv.str y]
  case Tauth =>
    refine (wp_bind _ _).2 (h.chk (by simp) ((wp_bind _ _).2 (At.rd32 h fun s₁ h₁ r₁ => ?_)))
    refine (wp_bind _ _).2 (At.gstring (hs _ (by simp)) h₁ fun s₂ u o h₂ hu hv r₂ => ?_)
    refine At.gstring (hs _ (by simp)) h₂ fun s₃ u' o' h₃ hu' hv' r₃ => ?_
    refine ⟨_, h₃, by simp [hu, hu', add_assoc], by rw [r₃, r₂, r₁],
      by rw [r₃, r₂, r₁], fun y => ?_⟩
    simp only [Fcall.body, Body.type, Fcall.deref, r₃, r₂, r₁, hv.append.str y, hv'.str y]
  case Tattach =>
    refine (wp_bind _ _).2 (h.chk (by simp) ((wp_bind _ _).2 (At.rd32 h fun s₁ h₁ r₁ => ?_)))
    refine (wp_bind _ _).2 (h₁.chk (by simp) ((wp_bind _ _).2 (At.rd32 h₁ fun s₂ h₂ r₂ => ?_)))
    refine (wp_bind _ _).2 (At.gstring (hs _ (by simp)) h₂ fun s₃ u o h₃ hu hv r₃ => ?_)
    refine At.gstring (hs _ (by simp)) h₃ fun s₄ u' o' h₄ hu' hv' r₄ => ?_
    refine ⟨_, h₄, by simp [hu, hu', add_assoc], by rw [r₄, r₃, r₂, r₁],
      by rw [r₄, r₃, r₂, r₁], fun y => ?_⟩
    simp only [Fcall.body, Body.type, Fcall.deref, r₄, r₃, r₂, r₁, hv.append.str y, hv'.str y]
  case Tcreate =>
    refine (wp_bind _ _).2 (h.chk (by simp) ((wp_bind _ _).2 (At.rd32 h fun s₁ h₁ r₁ => ?_)))
    refine (wp_bind _ _).2 (At.gstring (hs _ (by simp)) h₁ fun s₂ u o h₂ hu hv r₂ => ?_)
    refine (wp_bind _ _).2 (h₂.chk (by simp; omega) ((wp_bind _ _).2 (At.rd32 h₂ fun s₃ h₃ r₃ => ?_)))
    refine At.rd8 h₃ fun s₄ h₄ r₄ => ?_
    refine ⟨_, h₄, by simp [hu, add_assoc], by rw [r₄, r₃, r₂, r₁],
      by rw [r₄, r₃, r₂, r₁], fun y => ?_⟩
    simp only [Fcall.body, Body.type, Fcall.deref, r₄, r₃, r₂, r₁, hv.append.append.str y]
  case Tread =>
    refine (wp_bind _ _).2 (h.chk (by simp; omega) ((wp_bind _ _).2 (At.rd32 h fun s₁ h₁ r₁ => ?_)))
    refine (wp_bind _ _).2 (At.rd64 h₁ fun s₂ h₂ r₂ => At.rd32 h₂ fun s₃ h₃ r₃ => ?_)
    refine ⟨_, h₃, by simp, by rw [r₃, r₂, r₁], by rw [r₃, r₂, r₁], fun y => ?_⟩
    simp [Body.type, Fcall.deref, r₃, r₂, r₁]
  case Topen =>
    refine (wp_bind _ _).2 (h.chk (by simp; omega) ((wp_bind _ _).2 (At.rd32 h fun s₁ h₁ r₁ => ?_)))
    refine At.rd8 h₁ fun s₂ h₂ r₂ => ?_
    refine ⟨_, h₂, by simp, by rw [r₂, r₁], by rw [r₂, r₁], fun y => ?_⟩
    simp only [Fcall.body, Body.type, Fcall.deref, r₂, r₁]
  case Rerror =>
    rw [Node9.getBody]
    refine At.gstring (hs _ (by simp)) h fun s₁ u o h₁ hu hv r₁ => ?_
    refine ⟨_, h₁, by simp [hu], by rw [r₁], by rw [r₁], fun y => ?_⟩
    simp only [Fcall.body, Body.type, Fcall.deref, r₁, hv.str y]
  case Rauth | Rattach =>
    rw [Node9.getBody]
    refine At.gqid h fun s₁ h₁ r₁ => ?_
    refine ⟨_, h₁, by simp, by rw [r₁], by rw [r₁], fun y => ?_⟩
    simp only [Fcall.body, Body.type, Fcall.deref, r₁]
  case Ropen | Rcreate =>
    refine (wp_bind _ _).2 (At.gqid h fun s₁ h₁ r₁ => ?_)
    refine (wp_bind _ _).2 (h₁.chk (by simp) (At.rd32 h₁ fun s₂ h₂ r₂ => ?_))
    refine ⟨_, h₂, by simp, by rw [r₂, r₁], by rw [r₂, r₁], fun y => ?_⟩
    simp only [Fcall.body, Body.type, Fcall.deref, r₂, r₁]
  case Tflush =>
    refine (wp_bind _ _).2 (h.chk (by simp) (At.rd16 h fun s₁ h₁ r₁ => ?_))
    refine ⟨_, h₁, by simp, by rw [r₁], by rw [r₁], fun y => ?_⟩
    simp only [Fcall.body, Body.type, Fcall.deref, r₁]
  case Tclunk | Tremove | Tstat | Rwrite =>
    refine (wp_bind _ _).2 (h.chk (by simp) (At.rd32 h fun s₁ h₁ r₁ => ?_))
    refine ⟨_, h₁, by simp, by rw [r₁], by rw [r₁], fun y => ?_⟩
    simp only [Fcall.body, Body.type, Fcall.deref, r₁]
  case Rflush | Rclunk | Rremove | Rwstat =>
    exact (wp_pure ()).2 ⟨d, h, rfl, rfl, rfl, fun _ => rfl⟩

end

section
variable {f : Fcall CharPtr Mem} {m : Message}

theorem convM2S_bytes (hm : f.msg = some m) (hs : ∀ v ∈ m.body.strings, v.strlen < 2 ^ 16)
    (hn : m.body.nelem ≤ MAXWELEM) (h32 : m.size < 2 ^ 32) (f₀ : Fcall Ptr Ptr) :
    ∃ s, convM2S m.bytes f₀ = some (UInt32.ofNat m.size, s) ∧ (s.r.deref s.buf).msg = some m := by
  obtain ⟨ty, hty, rfl⟩ := map_eq_some_iff.1 hm
  have hsize : (UInt32.ofNat (Message.mk f.tag (f.body ty)).size).toNat = (Message.mk f.tag (f.body ty)).size :=
    UInt32.toNat_ofNat_of_lt' h32
  generalize hsz : UInt32.ofNat (Message.mk f.tag (f.body ty)).size = size at hsize
  have hwp : wp getMsg (fun n s => n = size ∧ (s.r.deref s.buf).msg = some ⟨f.tag, f.body ty⟩)
      (fun _ => False) ⟨0, (Message.mk f.tag (f.body ty)).bytes, f₀⟩ := by
    have h : At (⟨0, (Message.mk f.tag (f.body ty)).bytes, f₀⟩ : Cur (Fcall Ptr Ptr)) []
        (pbit32 size ++ (pbit8 ty.toByte ++ (pbit16 f.tag ++ ((f.body ty).bytes ++ [])))) :=
      ⟨by simp [Message.bytes, Message.header, hsz], rfl⟩
    refine (wp_bind _ _).2 (h.chk (by simp; omega) ((wp_bind _ _).2 (h.fetch rfl fun s₁ h₁ r₁ => ?_)))
    rw [gbit32_pbit32, if_neg (by rw [hsize]; simp [Message.size])]
    refine (wp_bind _ _).2 (At.rd8 h₁ fun s₂ h₂ r₂ => (wp_bind _ _).2 (At.rd16 h₂ fun s₃ h₃ r₃ => ?_))
    have htype : s₃.r.type = ty.toByte := by rw [r₃, r₂]
    have htag : s₃.r.tag = f.tag := by rw [r₃]
    rw [wp_bind, wp_field, htype, MsgType.ofByte_toByte]
    refine (wp_bind _ _).2 (wp_mono _ (At.getBody hs hn h₃) ?_ fun _ h => h)
    rintro - s₄ ⟨d, h₄, hlen, htype₄, htag₄, hbody⟩
    refine (wp_bind _ _).2 (h₄.chk zero_le ((wp_bind _ _).2 (wp_here.2 ?_)))
    have hp : size.toNat = s₄.p := by
      rw [hsize, h₄.p, hlen]
      simp [Message.size]
    rw [if_pos hp]
    refine (wp_pure size).2 ⟨rfl, ?_⟩
    have hbody := hbody []
    rw [← h₄.buf, Fcall.type_body] at hbody
    have hty₄ : (s₄.r.deref s₄.buf).type = ty.toByte := htype₄.trans htype
    have htg₄ : (s₄.r.deref s₄.buf).tag = f.tag := htag₄.trans htag
    rw [Fcall.msg, hty₄, MsgType.ofByte_toByte, map_some, htg₄, hbody]
  unfold convM2S
  unfold wp at hwp
  cases hrun : getMsg ⟨0, (Message.mk f.tag (f.body ty)).bytes, f₀⟩ with
  | ok n s =>
    rw [hrun] at hwp
    obtain ⟨rfl, hmsg⟩ := hwp
    exact ⟨s, rfl, hmsg⟩
  | ret0 s => rw [hrun] at hwp; exact hwp.elim
  | fault => rw [hrun] at hwp; exact hwp.elim

/-- `convS2M` writes exactly `sizeS2M(f)` bytes, `convM2S` on them returns that size and the message, and
encoding the decoded message gives the same bytes. -/
theorem convM2S_convS2M (hm : f.msg = some m) (hs : f.ShortStrings) (hn : m.body.nelem ≤ MAXWELEM)
    (h32 : m.size < 2 ^ 32) (ap : Bytes) (hap : (sizeS2M f).toNat ≤ ap.length) (f₀ : Fcall Ptr Ptr) :
    m.bytes.length = (sizeS2M f).toNat ∧
    convS2M f ap = some (sizeS2M f, m.bytes ++ ap.drop (sizeS2M f).toNat) ∧
    ∃ s, convM2S m.bytes f₀ = some (sizeS2M f, s) ∧ (s.r.deref s.buf).msg = f.msg ∧
      ∀ ap' : Bytes, (sizeS2M f).toNat ≤ ap'.length →
        convS2M (s.r.deref s.buf) ap' = some (sizeS2M f, m.bytes ++ ap'.drop (sizeS2M f).toNat) := by
  have hnat : (sizeS2M f).toNat = m.size := by rw [toNat_sizeS2M hm, Nat.mod_eq_of_lt h32]
  have hsz : UInt32.ofNat m.size = sizeS2M f := by rw [← hnat, UInt32.ofNat_toNat]
  obtain ⟨s, hdec, hmsg⟩ := convM2S_bytes hm (hs m hm) hn h32 f₀
  rw [hnat] at hap ⊢
  rw [← hsz]
  refine ⟨m.length_bytes, convS2M_fits hm (hs m hm) hn h32 hap, s, hdec, hmsg.trans hm.symm, ?_⟩
  intro ap' hap'
  exact convS2M_fits hmsg (hs m hm) hn h32 hap'

def walkUsrBob : Fcall CharPtr Mem :=
  { (default : Fcall CharPtr Mem) with
    type := 110, tag := 7, fid := 1, newfid := 2, nwname := 2
    wname := fun i => some (if i = 0 then ⟨[117, 115, 114], by decide⟩ else ⟨[98, 111, 98], by decide⟩) }

theorem convM2S_convS2M_walkUsrBob :
    ∃ m s, walkUsrBob.msg = some m ∧ m.bytes.length = 27 ∧ convM2S m.bytes default = some (27, s) ∧
      (s.r.deref s.buf).msg = walkUsrBob.msg := by
  have hm : walkUsrBob.msg = some ⟨7, walkUsrBob.body .Twalk⟩ := rfl
  have hsz : sizeS2M walkUsrBob = 27 := by decide
  have hs : walkUsrBob.ShortStrings := by
    intro m hm' s hs
    cases hm.symm.trans hm'
    simp only [Fcall.body, Body.strings, List.mem_map] at hs
    obtain ⟨i, -, rfl⟩ := hs
    by_cases hi : i = 0 <;> simp [walkUsrBob, CharPtr.str, CStr.strlen, hi]
  obtain ⟨hlen, -, s, hdec, hmsg, -⟩ := convM2S_convS2M hm hs (by decide) (by decide)
    (List.replicate 27 0) (by decide) default
  rw [hsz] at hlen hdec
  exact ⟨_, s, hm, hlen, hdec, hmsg⟩

end

end Node9
