import Node9.ConvS2M

/-!
# Where `convS2M` writes

The only guard is `size > nap`, with `size` summed in 32 bits. The sum wraps for a `Twrite` or an
`Rread` whose count is within a header of `2 ^ 32` (and for a `Twalk` that claims far more than
`MAXWELEM` names); the branch then emits more than `size` bytes.
-/

namespace Node9
open Buf List

/-- The bytes that the branch of the type emits: a walk with too many elements stops at its count. -/
def Message.emits (m : Message) : Nat :=
  match m.body with
  | .Twalk _ _ w => if w.length > MAXWELEM then 17 else m.size
  | .Rwalk q => if q.length > MAXWELEM then 9 else m.size
  | _ => m.size

/-- The 32-bit size of `f` wraps around to a positive number that passes `size > nap`. -/
def SizeWraps (f : Fcall CharPtr Mem) (nap : Nat) : Prop :=
  match MsgType.ofByte f.type with
  | some .Twrite => 2 ^ 32 < 23 + f.count.toNat ∧ 23 + f.count.toNat ≤ 2 ^ 32 + nap
  | some .Rread => 2 ^ 32 < 11 + f.count.toNat ∧ 11 + f.count.toNat ≤ 2 ^ 32 + nap
  | some .Twalk =>
    let n := ((range f.nwname.toNat).map fun i => 2 + (f.wname i).str.strlen).sum
    MAXWELEM < f.nwname.toNat ∧ 2 ^ 32 < 17 + n ∧ 17 + n ≤ 2 ^ 32 + nap ∧ nap < 17
  | _ => False

/-- `convS2M` stays inside the buffer, and returns 0 if what the branch emits does not fit in it. -/
def WritesInside (f : Fcall CharPtr Mem) (ap : Bytes) : Prop :=
  ∃ n buf, convS2M f ap = some (n, buf) ∧ ∀ m, f.msg = some m → ap.length < m.emits → n = 0

section
variable {f : Fcall CharPtr Mem} {m : Message} {ap : Bytes}

theorem emits_of_nelem_le (hn : m.body.nelem ≤ MAXWELEM) : m.emits = m.size := by
  unfold Message.emits
  cases hb : m.body <;> simp only [hb, Body.nelem] at hn ⊢ <;> rw [if_neg (Nat.not_lt.2 hn)]

theorem putMsg_overlong_run (size : UInt32) (ap : Bytes) (h : f.msg = some m) (hn : MAXWELEM < m.body.nelem) :
    (m.emits ≤ ap.length → ∃ s, putMsg f size ⟨0, ap, ()⟩ = .ret0 s) ∧
      (ap.length < m.emits → putMsg f size ⟨0, ap, ()⟩ = .fault) := by
  obtain ⟨t, ht, rfl⟩ := Option.map_eq_some_iff.1 h
  have hrun : ∃ b : Bytes, b.length = (Message.mk f.tag (f.body t)).emits ∧
      putMsg f size = emit b >>= fun _ => stop := by
    simp only [putMsg, ht]
    cases t <;> simp only [Fcall.body, Body.nelem, length_map, length_range, Nat.not_lt_zero] at hn
    case Twalk =>
      simp only [putBody, hn, ↓reduceIte, bind_assoc, emit_append_bind]
      exact ⟨_, by simp [Message.emits, Fcall.body, show 16 < f.nwname.toNat from hn], rfl⟩
    case Rwalk =>
      simp only [putBody, hn, ↓reduceIte, bind_assoc, emit_append_bind]
      exact ⟨_, by simp [Message.emits, Fcall.body, show 16 < f.nwqid.toNat from hn], rfl⟩
  obtain ⟨b, hb, hrun⟩ := hrun
  rw [hrun, BufM.bind_apply]
  constructor
  · intro hle
    exact ⟨⟨b.length, [] ++ b ++ ap.drop b.length, ()⟩, by simp [emit, hb, hle, stop]⟩
  · intro hlt
    simp [emit, hb, Nat.not_le.2 hlt]

theorem convS2M_of_le (h0 : sizeS2M f ≠ 0) (hle : (sizeS2M f).toNat ≤ ap.length) :
    convS2M f ap =
      match putMsg f (sizeS2M f) ⟨0, ap, ()⟩ with
      | .ok n s => some (n, s.buf)
      | .ret0 s => some (0, s.buf)
      | .fault => none := by
  exact (if_neg h0).trans (if_neg (Nat.not_lt.2 hle))

theorem convS2M_of_guard (h : sizeS2M f = 0 ∨ ap.length < (sizeS2M f).toNat) : convS2M f ap = some (0, ap) := by
  unfold convS2M
  rcases h with h | h
  · simp [h]
  · simp only [show (sizeS2M f).toNat > ap.length from h, ↓reduceIte, ite_self]

theorem emits_le_size (m : Message) : m.emits ≤ m.size := by
  unfold Message.emits
  split
  · split
    · simp [Message.size, *, Body.bytes]; omega
    · exact le_refl _
  · split
    · simp [Message.size, *, Body.bytes]; omega
    · exact le_refl _
  · exact le_refl _

theorem convS2M_past_guards (h : f.msg = some m) (hs : ∀ s ∈ m.body.strings, s.strlen < 2 ^ 16)
    (h0 : sizeS2M f ≠ 0) (hle : (sizeS2M f).toNat ≤ ap.length) :
    (m.emits ≤ ap.length → ∃ n buf, convS2M f ap = some (n, buf)) ∧
      (ap.length < m.emits → convS2M f ap = none) := by
  rw [convS2M_of_le h0 hle]
  rcases lt_or_ge MAXWELEM m.body.nelem with hn | hn
  · obtain ⟨h₁, h₂⟩ := putMsg_overlong_run (sizeS2M f) ap h hn
    refine ⟨fun hfit => ?_, fun hbig => by rw [h₂ hbig]⟩
    obtain ⟨s, hrun⟩ := h₁ hfit
    exact ⟨0, s.buf, by rw [hrun]⟩
  · rw [emits_of_nelem_le hn, putMsg_run _ h hs hn]
    refine ⟨fun hfit => ?_, fun hbig => by rw [if_neg (Nat.not_le.2 hbig)]⟩
    rw [if_pos hfit]
    by_cases hsz : (sizeS2M f).toNat = m.size <;> simp [hsz]

theorem sum_short_le (l : List Nat) (w : Nat → CharPtr) (h : ∀ i ∈ l, (w i).str.strlen < 2 ^ 16) :
    (l.map fun i => 2 + (w i).str.strlen).sum ≤ l.length * 65537 := by
  induction l with
  | nil => simp
  | cons i l ih =>
    have h₁ := h i (by simp)
    have h₂ := ih fun j hj => h j (by simp [hj])
    simp only [map_cons, sum_cons, length_cons]
    omega

theorem size_Twalk (hs : ∀ s ∈ (f.body .Twalk).strings, s.strlen < 2 ^ 16) :
    (Message.mk f.tag (f.body .Twalk)).size =
        17 + ((range f.nwname.toNat).map fun i => 2 + (f.wname i).str.strlen).sum ∧
      ((range f.nwname.toNat).map fun i => 2 + (f.wname i).str.strlen).sum ≤
        f.nwname.toNat * 65537 := by
  refine ⟨?_, ?_⟩
  · simp only [Message.size, Fcall.body, Body.bytes, length_append, length_pbit32, length_pbit16,
      length_flatMap, map_map, Function.comp_def, length_strBytes, BIT32SZ, BIT8SZ, BIT16SZ]
    omega
  · have := sum_short_le (range f.nwname.toNat) f.wname fun i hi => hs _ (mem_map.2 ⟨i, hi, rfl⟩)
    rwa [length_range] at this

theorem size_lt_of_type {t : MsgType} (ht : t ≠ .Twalk ∧ t ≠ .Twrite ∧ t ≠ .Rread)
    (hs : ∀ s ∈ (f.body t).strings, s.strlen < 2 ^ 16) : (Message.mk f.tag (f.body t)).size < 2 ^ 32 := by
  have hq := f.nwqid.toNat_lt
  have hst := f.nstat.toNat_lt
  cases t with
  | Twalk => exact absurd rfl ht.1
  | Twrite => exact absurd rfl ht.2.1
  | Rread => exact absurd rfl ht.2.2
  | _ =>
    simp only [Fcall.body, Body.strings, mem_cons, not_mem_nil, or_false, forall_eq_or_imp,
      forall_eq, false_implies, implies_true] at hs
    simp [-length_flatMap, Message.size, Fcall.body, Body.bytes, length_flatMap_qidBytes] <;> omega

theorem emits_Twalk : (Message.mk f.tag (f.body .Twalk)).emits =
    if f.nwname.toNat > MAXWELEM then 17 else (Message.mk f.tag (f.body .Twalk)).size := by
  simp [Message.emits, Fcall.body]

theorem sizeWraps_iff (h : f.msg = some m) (hs : ∀ s ∈ m.body.strings, s.strlen < 2 ^ 16) {nap : Nat}
    (hnap : nap < 2 ^ 32) :
    (SizeWraps f nap ↔ 2 ^ 32 < m.size ∧ m.size ≤ 2 ^ 32 + nap ∧ nap < m.emits) ∧ m.size < 2 ^ 33 := by
  obtain ⟨t, ht, rfl⟩ := Option.map_eq_some_iff.1 h
  have hc := f.count.toNat_lt
  rw [SizeWraps, ht]
  by_cases hsmall : t ≠ .Twalk ∧ t ≠ .Twrite ∧ t ≠ .Rread
  · have hlt := size_lt_of_type hsmall hs
    refine ⟨⟨fun hw => ?_, fun hw => absurd hw.1 (by omega)⟩, by omega⟩
    cases t <;> simp_all
  cases t with
  | Twalk =>
    have hnw := f.nwname.toNat_lt
    obtain ⟨hsize, hsum⟩ := size_Twalk hs
    rw [emits_Twalk, hsize]
    generalize ((range f.nwname.toNat).map fun i => 2 + (f.wname i).str.strlen).sum = n at hsum ⊢
    refine ⟨?_, by omega⟩
    by_cases hlong : f.nwname.toNat > MAXWELEM
    · rw [if_pos hlong]
      omega
    · rw [if_neg hlong]
      simp only [MAXWELEM] at hlong ⊢
      omega
  | Twrite | Rread =>
    simp only [Message.emits, Message.size, Fcall.body, Body.bytes, length_append, length_pbit32,
      length_pbit64, Mem.length_read, BIT32SZ, BIT8SZ, BIT16SZ]
    omega
  | _ => exact absurd ⟨by decide, by decide, by decide⟩ hsmall

/-- `convS2M` writes only inside the buffer exactly if the 32-bit size does not wrap to a value that
passes the guard. -/
theorem convS2M_writesInside_iff (hs : f.ShortStrings) (hnap : ap.length < 2 ^ 32) :
    WritesInside f ap ↔ ¬ SizeWraps f ap.length := by
  cases hm : f.msg with
  | none =>
    have ht : MsgType.ofByte f.type = none := by simpa [Fcall.msg] using hm
    have h0 : sizeS2M f = 0 := by rw [sizeS2M, ht]
    exact ⟨fun _ => by simp [SizeWraps, ht],
      fun _ => ⟨0, ap, convS2M_of_guard (.inl h0), fun m h => by simp [hm] at h⟩⟩
  | some m =>
    have hs := hs m hm
    have hsz := toNat_sizeS2M hm
    have hemits := emits_le_size m
    obtain ⟨hwraps, h33⟩ := sizeWraps_iff hm hs hnap
    rw [hwraps]
    by_cases hg : sizeS2M f = 0 ∨ ap.length < (sizeS2M f).toNat
    · refine ⟨fun _ => ?_, fun _ => ⟨0, ap, convS2M_of_guard hg, fun _ _ _ => rfl⟩⟩
      have hg' : m.size % 2 ^ 32 = 0 ∨ ap.length < m.size % 2 ^ 32 := by
        rw [← hsz]
        exact hg.imp_left fun h => by rw [h]; rfl
      omega
    · obtain ⟨h0, hle⟩ := not_or.1 hg
      have hle := Nat.not_lt.1 hle
      have h0' : m.size % 2 ^ 32 ≠ 0 := fun h => h0 (UInt32.toNat_inj.mp (hsz.trans h))
      obtain ⟨hfits, hfault⟩ := convS2M_past_guards hm hs h0 hle
      rw [hsz] at hle
      rcases Nat.lt_or_ge ap.length m.emits with hbig | hfit
      · -- past the guards with too little room: the size wrapped and a byte outside was written
        refine ⟨?_, fun hnw => absurd ?_ hnw⟩
        · rintro ⟨n, buf, hrun, -⟩
          rw [hfault hbig] at hrun
          cases hrun
        · omega
      · refine ⟨fun _ => by omega, fun _ => ?_⟩
        obtain ⟨n, buf, hrun⟩ := hfits hfit
        exact ⟨n, buf, hrun, fun m' hm' hlt => by cases hm.symm.trans hm'; omega⟩

/-- An `Rread` whose count is what a device returned as -1 (any count, to begin with). -/
def rread (count : UInt32) : Fcall CharPtr Mem :=
  { (default : Fcall CharPtr Mem) with type := 117, count := count }

theorem msg_rread (count : UInt32) : (rread count).msg = some ⟨0, (rread count).body .Rread⟩ := rfl

theorem shortStrings_rread (count : UInt32) : (rread count).ShortStrings := by
  intro m hm s hs
  cases (msg_rread count).symm.trans hm
  simp [Fcall.body, Body.strings] at hs

theorem emits_rread (count : UInt32) :
    (Message.mk 0 ((rread count).body .Rread)).emits = 11 + count.toNat := by
  simp only [Message.emits, Message.size, Fcall.body, Body.bytes, length_append, length_pbit32,
    Mem.length_read, BIT32SZ, BIT8SZ, BIT16SZ, rread]
  omega

/-- `count = 0xFFFFFFFF` in a reply buffer of `MAXRPCDEF` bytes: `size` is 10. -/
theorem convS2M_rread_minus_one_outside :
    ¬ ∀ (f : Fcall CharPtr Mem) (ap : Bytes), f.ShortStrings → ap.length < 2 ^ 32 → WritesInside f ap := by
  intro h
  have hap : (replicate 8216 (0 : UInt8)).length = 8216 := length_replicate
  obtain ⟨n, buf, hrun, -⟩ :=
    h (rread 0xFFFFFFFF) (replicate 8216 0) (shortStrings_rread _) (by rw [hap]; decide)
  have hsz : sizeS2M (rread 0xFFFFFFFF) = 10 := by decide
  have hmsg := msg_rread 0xFFFFFFFF
  have hbig : (replicate 8216 (0 : UInt8)).length <
      (Message.mk 0 ((rread 0xFFFFFFFF).body .Rread)).emits := by
    rw [hap, emits_rread]
    decide
  have hnone := (convS2M_past_guards hmsg (shortStrings_rread _ _ hmsg) (by rw [hsz]; decide)
    (by rw [hsz, hap]; decide)).2 hbig
  rw [hnone] at hrun
  cases hrun

/-- The 14 bytes of an `Rread` of three bytes, in a buffer of 16. -/
theorem convS2M_writesInside_rread_three : WritesInside (rread 3) (replicate 16 0) := by
  refine (convS2M_writesInside_iff (shortStrings_rread 3) (by decide)).2 ?_
  have ht : MsgType.ofByte (rread 3).type = some .Rread := by decide
  rw [SizeWraps, ht]
  exact fun hw => absurd hw.1 (by decide)

end

end Node9
