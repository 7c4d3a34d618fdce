import Node9.FsDir

/-!
# Reading the host's directories at an offset

A read at another offset than the last has left goes back to the start of the directory and over the entries up to there
(`seekLoop`). At an offset where an entry begins it gives what a reader gets who has come there by reading
(`fsdirread_at`).
-/

namespace Node9.Devfs
open Buf Names Listing Option
open List hiding lex

def after : List Bytes → Nat → List Bytes
  | [], _ => []
  | e :: es, off => if off = 0 then e :: es else after es (off - e.length)

/-- An entry begins at the offset, or it is not before the end. -/
def AtEntry (es : List Bytes) (off : Nat) : Prop := es.flatten.length ≤ off ∨ ∃ us, us <+: es ∧ us.flatten.length = off

/-- `FS(c)->offset` is where it has come to in the directory. -/
structure Placed (d : OpenDir) (h : Files) (fs : Fs) : Prop where
  before : ∃ des, d.listing = des ++ fs.left ∧ fs.offset = (d.encs h des).flatten.length
  eod : fs.eod = true → fs.left = []

variable {d : OpenDir} {h : Files} {fs fs' : Fs} {de : Dirent} {dir : List Dirent} {va r : Bytes} {n offset off : Nat}
  {es us vs : List Bytes}

theorem placed_opened (d : OpenDir) (h : Files) : Placed d h d.opened :=
  ⟨⟨[], rfl, rfl⟩, fun h => by cases h⟩

theorem after_append (hne : ∀ e ∈ us ++ vs, e ≠ []) : after (us ++ vs) us.flatten.length = vs := by
  induction us with
  | nil =>
    cases vs with
    | nil => rfl
    | cons e vs => exact if_pos rfl
  | cons e us ih =>
    obtain ⟨he, hne⟩ := forall_mem_cons.1 hne
    have hpos := length_pos_iff.2 he
    rw [cons_append, after, flatten_cons, length_append,
      if_neg (by omega), Nat.add_sub_cancel_left, ih hne]

theorem after_end (hne : ∀ e ∈ es, e ≠ []) (hoff : es.flatten.length ≤ off) : after es off = [] := by
  induction es generalizing off with
  | nil => rfl
  | cons e es ih =>
    obtain ⟨he, hne⟩ := forall_mem_cons.1 hne
    have hpos := length_pos_iff.2 he
    rw [flatten_cons, length_append] at hoff
    rw [after, if_neg (by omega)]
    exact ih hne (by omega)

theorem encs_append (des des' : List Dirent) : d.encs h (des ++ des') = d.encs h des ++ d.encs h des' :=
  filterMap_append ..

theorem encs_cons_none (hde : d.shown h de = none) : d.encs h (de :: dir) = d.encs h dir :=
  filterMap_cons_none (enc_none hde)

theorem encs_cons_some {e : Dir CharPtr} (hde : d.shown h de = some e) :
    d.encs h (de :: dir) = e.bytes :: d.encs h dir :=
  filterMap_cons_some (enc_some hde)

/-! ### Going to an offset -/

theorem seekLoop_none (hn : n < offset) (hde : d.shown h de = none) :
    seekLoop d h (slashed d.name) offset (de :: dir) n = seekLoop d h (slashed d.name) offset dir n := by
  conv_lhs => rw [seekLoop, if_pos hn]
  dsimp only
  unfold OpenDir.shown at hde
  split_ifs at hde ⊢
  · rfl
  · rw [map_eq_none_iff.1 hde]

theorem seekLoop_some {e : Dir CharPtr} (hn : n < offset) (hde : d.shown h de = some e) (hsize : e.size ≤ slopSize) :
    seekLoop d h (slashed d.name) offset (de :: dir) n = seekLoop d h (slashed d.name) offset dir (n + e.size) := by
  conv_lhs => rw [seekLoop, if_pos hn]
  dsimp only
  unfold OpenDir.shown at hde
  split_ifs at hde with hskip
  obtain ⟨st, hst, rfl⟩ := map_eq_some_iff.1 hde
  have hpos : 0 < (fsdir h d.dev (strecpy (slashed d.name) de.d_name.bytes) de.d_name st).size :=
    lt_of_lt_of_le (by decide) (Nat.le_add_right STATFIXLEN _)
  rw [if_neg hskip, hst]
  dsimp only
  rw [fsdirconv_fits (by rw [length_replicate]; exact hsize)]
  simp only [bind_eq_bind, bind_some, Int.toNat_natCast]
  rw [if_neg (by omega)]

theorem seekLoop_here : seekLoop d h (slashed d.name) offset dir offset = some (.there ⟨dir, none, offset, false⟩) := by
  cases dir <;> rw [seekLoop, if_neg (lt_irrefl offset)]

theorem seekLoop_there (hbig : ∀ e ∈ d.encs h dir, e.length ≤ slopSize) (hus : us <+: d.encs h dir)
    (hoff : n + us.flatten.length = offset) :
    ∃ des dir', dir = des ++ dir' ∧ d.encs h des = us ∧
      seekLoop d h (slashed d.name) offset dir n = some (.there ⟨dir', none, offset, false⟩) := by
  induction dir generalizing n us with
  | nil =>
    obtain rfl := prefix_nil.1 hus
    obtain rfl : n = offset := hoff
    exact ⟨[], [], rfl, rfl, seekLoop_here⟩
  | cons de dir ih =>
    cases us with
    | nil =>
      obtain rfl : n = offset := hoff
      exact ⟨[], de :: dir, rfl, rfl, seekLoop_here⟩
    | cons u us =>
      have hpos : 0 < u.length := length_pos_iff.2 (encs_ne_nil u (hus.subset mem_cons_self))
      rw [flatten_cons, length_append] at hoff
      cases hde : d.shown h de with
      | none =>
        rw [encs_cons_none hde] at hbig hus
        obtain ⟨des, dir', rfl, hdes, hseek⟩ := ih hbig hus (by rw [flatten_cons, length_append]; exact hoff)
        exact ⟨de :: des, dir', rfl, (encs_cons_none hde).trans hdes, (seekLoop_none (by omega) hde).trans hseek⟩
      | some e =>
        rw [encs_cons_some hde] at hbig hus
        obtain ⟨he, hbig⟩ := forall_mem_cons.1 hbig
        obtain ⟨rfl, hus'⟩ := cons_prefix_cons.1 hus
        have hsize := Dir.length_bytes e
        have hoff' : n + e.size + us.flatten.length = offset := by omega
        obtain ⟨des, dir', rfl, hdes, hseek⟩ := ih hbig hus' hoff'
        refine ⟨de :: des, dir', rfl, by rw [encs_cons_some hde, hdes], ?_⟩
        exact (seekLoop_some (by omega) hde (by omega)).trans hseek

theorem seekLoop_end (hbig : ∀ e ∈ d.encs h dir, e.length ≤ slopSize)
    (hoff : n + (d.encs h dir).flatten.length < offset) :
    seekLoop d h (slashed d.name) offset dir n = some (.ret ⟨[], none, n + (d.encs h dir).flatten.length, true⟩) := by
  induction dir generalizing n with
  | nil =>
    have hnil : (d.encs h []).flatten.length = 0 := rfl
    rw [hnil, add_zero] at hoff ⊢
    rw [seekLoop, if_pos hoff]
  | cons de dir ih =>
    cases hde : d.shown h de with
    | none =>
      rw [encs_cons_none hde] at hbig hoff ⊢
      rw [seekLoop_none (by omega) hde]
      exact ih hbig hoff
    | some e =>
      rw [encs_cons_some hde] at hbig hoff ⊢
      obtain ⟨he, hbig⟩ := forall_mem_cons.1 hbig
      have hsize := Dir.length_bytes e
      rw [flatten_cons, length_append, hsize, ← add_assoc] at hoff ⊢
      rw [seekLoop_some (by omega) hde (by omega)]
      exact ih hbig hoff

/-! ### A read at an offset -/

theorem Filled.placed (hf : Filled d h fs n fs' r) (hp : Placed d h fs) : Placed d h fs' := by
  obtain ⟨⟨des, hdes, hoff⟩, heod⟩ := hp
  obtain ⟨⟨us, hus, hgiven⟩, -, hr, hoff', heod'⟩ := hf
  refine ⟨⟨des ++ us, by rw [hdes, hus, append_assoc], ?_⟩, fun h => ?_⟩
  · rw [hoff', hoff, hr, encs_append, flatten_append, length_append, hgiven]
  · rcases heod' h with h | h
    · exact (append_eq_nil_iff.1 (hus.symm.trans (heod h))).2
    · exact h

theorem Placed.after (hp : Placed d h fs) : after (d.encs h d.listing) fs.offset = d.encs h fs.left := by
  obtain ⟨⟨des, hdes, hoff⟩, -⟩ := hp
  rw [hoff, hdes, encs_append]
  exact after_append (encs_append (h := h) des fs.left ▸ encs_ne_nil)

section
variable (hname : (slashed d.name).length < MAXPATH)
include hname

theorem fsdirread_there {fs₁ : Fs} (hoff : fs.offset ≠ off)
    (hseek : seekLoop d h (slashed d.name) off d.listing 0 = some (.there fs₁)) (hoff₁ : fs₁.offset = off) :
    fsdirread d h fs va off = fsdirread d h fs₁ va fs₁.offset := by
  simp [fsdirread, fspath_eq hname, hoff, hseek, hoff₁]

theorem fsdirread_ret {fs₁ : Fs} (hoff : fs.offset ≠ off)
    (hseek : seekLoop d h (slashed d.name) off d.listing 0 = some (.ret fs₁)) :
    fsdirread d h fs va off = some (fs₁, []) := by
  simp [fsdirread, fspath_eq hname, hoff, hseek]

theorem fsdirread_at (hbig : ∀ e ∈ d.encs h d.listing, e.length ≤ slopSize)
    (hp : Placed d h fs) (hat : AtEntry (d.encs h d.listing) off) :
    ∃ fs', fsdirread d h fs va off = some (fs', (fill va.length (after (d.encs h d.listing) off)).1.flatten) ∧
      Placed d h fs' := by
  have hhere : ∀ {fs : Fs}, Placed d h fs →
      ∃ fs', fsdirread d h fs va fs.offset =
        some (fs', (fill va.length (Devfs.after (d.encs h d.listing) fs.offset)).1.flatten) ∧ Placed d h fs' := by
    intro fs hp
    obtain ⟨fs', r, hread, hfill⟩ := @fsdirread_spec _ h _ va hname hp.eod
    refine ⟨fs', ?_, hfill.placed hp⟩
    rw [hread, hfill.result, hp.after]
  by_cases hoff : fs.offset = off
  · exact hoff ▸ hhere hp
  by_cases hend : (d.encs h d.listing).flatten.length < off
  · have hseek := @seekLoop_end _ _ _ 0 off hbig (by omega)
    have hp₁ : Placed d h ⟨[], none, 0 + (d.encs h d.listing).flatten.length, true⟩ :=
      ⟨⟨d.listing, (append_nil _).symm, zero_add _⟩, fun _ => rfl⟩
    refine ⟨_, ?_, hp₁⟩
    rw [fsdirread_ret hname hoff hseek, after_end encs_ne_nil hend.le]
    rfl
  obtain ⟨us, hus, hlen⟩ : ∃ us, us <+: d.encs h d.listing ∧ us.flatten.length = off := by
    rcases hat with hle | hus
    · exact ⟨_, prefix_refl _, by omega⟩
    · exact hus
  obtain ⟨des, dir', hdir, hdes, hseek⟩ := @seekLoop_there _ _ _ 0 off _ hbig hus (by omega)
  have hp₁ : Placed d h ⟨dir', none, off, false⟩ :=
    ⟨⟨des, hdir, by rw [hdes, hlen]⟩, fun h => by cases h⟩
  rw [fsdirread_there hname hoff hseek rfl]
  exact hhere hp₁

end

end Node9.Devfs
