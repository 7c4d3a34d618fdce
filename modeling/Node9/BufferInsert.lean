import Node9.BufferSpec

/-!
# Inserting into a buffer

The loop of `bbInsertn` counts `i` but leaves `j` where it is, so of the tail only the last byte is moved. `Inserts`
is what an insertion should leave. `InsertFits` says when it does: when the bytes to be moved happen to be where
they should go (no tail, a tail of one byte, or no bytes inserted are cases of it), and the lengths do not wrap.
-/

namespace Node9.Buffers
open Buf List

section
variable {s s₁ : State}

/-- The bytes of `content` after a reallocation. -/
def Bytebuffer.resized (bb : Bytebuffer) (sz : UInt32) : Bytes :=
  (bb.contents ++ List.replicate (sz.toNat - bb.length.toNat) 0).take sz.toNat

/-- The bytes of `content` after room was made for `n` more; `none` if the buffer may not be extended. -/
def Bytebuffer.extended (bb : Bytebuffer) (n : UInt32) : Option Bytes :=
  if bb.length + n < bb.alloc then some bb.cells
  else if n + bb.alloc = 0 then some (bb.resized (doubled bb.alloc))
  else if bb.alloc ≥ n + bb.alloc then some bb.cells
  else if bb.nonextendible then none
  else some (bb.resized (n + bb.alloc))

/-- The first statements of `bbInsertn`. -/
def extend (n : UInt32) : BB Unit := do
  let bb ← buffer
  if bb.length + n ≥ bb.alloc then bbSetalloc (n + bb.alloc)

def insertRest (index : UInt32) (elem : Bytes) (n : UInt32) : BB Unit := do
  let bb ← buffer
  shift (bb.length + n - 1).toInt32.toInt n (bb.length.toNat - index.toNat)
  let e ← fetch elem n.toNat
  store index.toNat e
  modify fun bb => { bb with length := bb.length + n }

/-- `s₁` is `s` with `c` for the bytes of `content`, the old contents among them. -/
structure Extended (s : State) (c : Bytes) (s₁ : State) : Prop where
  inv : Inv s₁
  cells : s₁.bb.cells = c
  length : s₁.bb.length = s.bb.length
  take : c.take s.bb.length.toNat = s.bb.contents

theorem Extended.refl (h : Inv s) : Extended s s.bb.cells s := ⟨h, rfl, rfl, rfl⟩

theorem length_resized (h : Inv s) (sz : UInt32) : (s.bb.resized sz).length = sz.toNat := by
  have := h.length_contents
  simp only [Bytebuffer.resized, length_take, length_append, length_replicate]
  omega

theorem realloc_extended (h : Inv s) {sz : UInt32} (hsz : s.bb.length.toNat ≤ sz.toNat) :
    ∃ s₁, realloc sz s = .ok () s₁ ∧ Extended s (s.bb.resized sz) s₁ := by
  have hc := h.length_contents
  have heq : s.bb.resized sz = s.bb.contents ++ List.replicate (sz.toNat - s.bb.length.toNat) 0 := by
    refine take_of_length_le ?_
    rw [length_append, length_replicate]
    omega
  refine ⟨_, realloc_eq h hsz, inv_resize h hsz, by rw [heq, cells_resize], rfl, ?_⟩
  rw [heq, ← hc, take_left]

theorem extend_spec (h : Inv s) (n : UInt32) :
    match s.bb.extended n with
    | none => extend n s = .exit
    | some cells =>
      if s.bb.length.toNat ≤ cells.length then ∃ s₁, extend n s = .ok () s₁ ∧ Extended s cells s₁
      else extend n s = .fault := by
  have hcells := h.cells
  have hle := h.length_le
  unfold Bytebuffer.extended extend
  by_cases h1 : s.bb.length + n < s.bb.alloc
  · have hn : ¬ s.bb.length + n ≥ s.bb.alloc := fun hge =>
      absurd (UInt32.le_iff_toNat_le.1 hge) (Nat.not_le.2 (UInt32.lt_iff_toNat_lt.1 h1))
    simp only [if_pos h1, bind_buffer, if_neg hn, pure_apply]
    rw [if_pos (by omega)]
    exact ⟨s, rfl, .refl h⟩
  have hn : s.bb.length + n ≥ s.bb.alloc :=
    UInt32.le_iff_toNat_le.2 (Nat.not_lt.1 fun hlt => h1 (UInt32.lt_iff_toNat_lt.2 hlt))
  simp only [if_neg h1, bind_buffer, if_pos hn, bbSetalloc]
  by_cases h2 : n + s.bb.alloc = 0
  · simp only [if_pos h2, length_resized h]
    split_ifs with hsz
    · exact realloc_extended h hsz
    · exact realloc_fault h (Nat.not_le.1 hsz)
  simp only [if_neg h2]
  by_cases h3 : s.bb.alloc ≥ n + s.bb.alloc
  · simp only [if_pos h3, pure_apply]
    rw [if_pos (by omega)]
    exact ⟨s, rfl, .refl h⟩
  simp only [if_neg h3]
  by_cases h4 : s.bb.nonextendible = true
  · simp only [if_pos h4, bbFail_apply]
  have hsz : s.bb.length.toNat ≤ (n + s.bb.alloc).toNat := by
    have := mt UInt32.le_iff_toNat_le.2 h3
    omega
  simp only [if_neg h4, length_resized h]
  rw [if_pos hsz]
  exact realloc_extended h hsz

theorem bbInsertn_eq {index n : UInt32} {elem : Bytes}
    (hlen : ∀ s₁, extend n s = .ok () s₁ → s₁.bb.length = s.bb.length) :
    bbInsertn index elem n s = (extend n >>= fun _ => insertRest index elem n) s := by
  have hrest (s₁ : State) (hl : s₁.bb.length = s.bb.length) :
      insertRest index elem n s₁ = (shift (s.bb.length + n - 1).toInt32.toInt n (s.bb.length.toNat - index.toNat) >>=
        fun _ => fetch elem n.toNat >>= fun e => store index.toNat e >>=
          fun _ => modify fun bb => { bb with length := bb.length + n }) s₁ := by
    rw [insertRest, bind_buffer, hl]
  unfold bbInsertn
  rw [bind_buffer]
  dsimp only
  have hext : extend n s = (if s.bb.length + n ≥ s.bb.alloc then bbSetalloc (n + s.bb.alloc) else pure ()) s := rfl
  split
  · rename_i hge
    rw [if_pos hge] at hext
    cases hs : bbSetalloc (n + s.bb.alloc) s with
    | ok _ s₁ =>
      have he := hext.trans hs
      rw [bind_ok hs, bind_ok he, hrest s₁ (hlen s₁ he)]
    | exit => rw [bind_exit hs, bind_exit (hext.trans hs)]
    | fault => rw [bind_fault hs, bind_fault (hext.trans hs)]
    | running => rw [bind_running hs, bind_running (hext.trans hs)]
  · rename_i hge
    rw [if_neg hge] at hext
    rw [bind_ok hext, hrest s rfl]

theorem toInt_toInt32 (x : UInt32) :
    x.toInt32.toInt = if x.toNat < 2 ^ 31 then (x.toNat : Int) else (x.toNat : Int) - 2 ^ 32 := by
  have hx : x.toInt32.toInt = x.toBitVec.toInt := rfl
  rw [hx, BitVec.toInt_eq_toNat_cond]
  split <;> split <;> simp_all <;> omega

theorem ofInt_toNat (x : UInt32) : UInt32.ofInt (x.toNat : Int) = x := by
  have h : ((x.toNat : Int) % 2 ^ 32).toNat = x.toNat := by
    have := x.toNat_lt
    omega
  rw [UInt32.ofInt, h, UInt32.ofNat_toNat]

theorem shift_fault {j : Int} {n : UInt32} {count : Nat} (hj : ¬ s.bb.Within j 1) (hc : 0 < count) :
    shift j n count s = .fault := by
  obtain ⟨c, rfl⟩ := Nat.exists_eq_succ_of_ne_zero hc.ne'
  show (load (UInt32.ofInt j - n).toNat 1 >>= fun x => store j x >>= fun _ => shift j n c) s = _
  by_cases hw : (1 = 0 ∨ s.bb.Within (UInt32.ofInt j - n).toNat 1)
  · obtain ⟨-, -, hw₂⟩ := hw.resolve_left Nat.one_ne_zero
    have hl : load (UInt32.ofInt j - n).toNat 1 s =
        .ok ((s.bb.cells.drop (UInt32.ofInt j - n).toNat).take 1) s := if_pos hw
    have hlen : ((s.bb.cells.drop (UInt32.ofInt j - n).toNat).take 1).length = 1 := by
      rw [length_take, length_drop]
      omega
    rw [bind_ok hl]
    exact bind_fault (store_fault (by rw [hlen]; exact hj) (length_pos_iff.1 (by omega))) _
  · exact bind_fault (if_neg hw) _

theorem overwrite_overwrite {bytes xs : Bytes} {i : Nat} (h : i + xs.length ≤ bytes.length) :
    overwrite (overwrite bytes i xs) i xs = overwrite bytes i xs := by
  refine ext_getElem? fun p => ?_
  rw [getElem?_overwrite _ _ (by rw [length_overwrite h]; exact h), getElem?_overwrite _ _ h]
  split_ifs <;> rfl

theorem shift_spec {j src : Nat} {n : UInt32} {x : UInt8} (hsrc : (UInt32.ofInt j - n).toNat = src) :
    ∀ (count : Nat) {s : State}, Inv s → j < s.bb.alloc.toNat → s.bb.cells[src]? = some x → 0 < count →
      ∃ s', shift j n count s = .ok () s' ∧ Writes s j [x] s'
  | 0, _, _, _, _, hc => absurd hc (Nat.lt_irrefl 0)
  | count + 1, s, h, hj, hx, _ => by
    have hcells := h.cells
    obtain ⟨hlt, -⟩ := List.getElem?_eq_some_iff.1 hx
    have hl : load src 1 s = .ok [x] s := by
      rw [load_ok h (by omega), take_one_drop_eq_of_lt_length hlt]
      rw [List.getElem?_eq_getElem hlt] at hx
      cases hx
      rfl
    obtain ⟨s₁, hs₁, hw⟩ := store_spec (i := j) [x] h hj
    have hunfold : shift j n (count + 1) s = shift j n count s₁ := by
      show (load (UInt32.ofInt j - n).toNat 1 >>= fun x => store j x >>= fun _ => shift j n count) s = _
      rw [hsrc, bind_ok hl, bind_ok hs₁]
    rw [hunfold]
    cases count with
    | zero => exact ⟨s₁, rfl, hw⟩
    | succ count =>
      have hfit : j + [x].length ≤ s.bb.cells.length := by rw [hcells]; exact hj
      have hx₁ : s₁.bb.cells[src]? = some x := by
        rw [hw.cells, getElem?_overwrite _ _ hfit]
        split_ifs with h1 h2
        · exact hx
        · have : src = j := by rw [length_singleton] at h2; omega
          simp [this]
        · exact hx
      obtain ⟨s₂, hs₂, hw₂⟩ := shift_spec hsrc (count + 1) hw.inv (by rw [hw.alloc]; exact hj) hx₁ (Nat.succ_pos _)
      refine ⟨s₂, hs₂, hw₂.inv, ?_, hw₂.length.trans hw.length, hw₂.alloc.trans hw.alloc,
        hw₂.nonextendible.trans hw.nonextendible, hw₂.addr.trans hw.addr, hw₂.freed.trans hw.freed⟩
      rw [hw₂.cells, hw.cells, overwrite_overwrite hfit]

/-- `e` before the byte at `index`. -/
def inserted (contents : Bytes) (index : Nat) (e : Bytes) : Bytes := contents.take index ++ e ++ contents.drop index

theorem getElem?_inserted {contents e : Bytes} {index : Nat} (hi : index ≤ contents.length) (p : Nat) :
    (inserted contents index e)[p]? =
      if p < index then contents[p]? else if p < index + e.length then e[p - index]? else contents[p - e.length]? := by
  have hl : (contents.take index).length = index := by rw [length_take, min_eq_left hi]
  rw [inserted, append_assoc, List.getElem?_append, hl]
  split_ifs with h1 h2
  · rw [List.getElem?_take, if_pos h1]
  · rw [List.getElem?_append, if_pos (by omega)]
  · rw [List.getElem?_append, if_neg (by omega), List.getElem?_drop]
    congr 1
    omega

theorem length_inserted {contents e : Bytes} {index : Nat} (hi : index ≤ contents.length) :
    (inserted contents index e).length = contents.length + e.length := by
  simp only [inserted, length_append, length_take, length_drop]
  omega

/-- The bytes of the tail, but for the last, are where they should go. -/
def InPlace (contents : Bytes) (index n : Nat) (cells : Bytes) : Prop :=
  ∀ p, index + n ≤ p → p + 1 < contents.length + n → cells[p]? = contents[p - n]?

/-- What the loop and the copy make of the bytes `bs`. -/
def spliced (bs contents : Bytes) (index : Nat) (e : Bytes) : Bytes :=
  overwrite
    (if index < contents.length then
      overwrite bs (contents.length + e.length - 1) (contents.drop (contents.length - 1)) else bs)
    index e

theorem spliced_iff {bs contents e : Bytes} {index : Nat} (hc : bs.take contents.length = contents)
    (hi : index ≤ contents.length) (hfit : contents.length + e.length ≤ bs.length) :
    (spliced bs contents index e).take (contents.length + e.length) = inserted contents index e ↔
      InPlace contents index e.length bs := by
  have hlow (p : Nat) (hp : p < contents.length) : bs[p]? = contents[p]? := by
    rw [← hc, List.getElem?_take, if_pos hp]
  have hlast : (contents.drop (contents.length - 1)).length = min 1 contents.length := by
    rw [length_drop]
    omega
  have hm (hlt : index < contents.length) (p : Nat) :
      (overwrite bs (contents.length + e.length - 1) (contents.drop (contents.length - 1)))[p]? =
        if p + 1 = contents.length + e.length then contents[p - e.length]? else bs[p]? := by
    rw [getElem?_overwrite _ _ (by omega), hlast]
    split_ifs with h1 h2 h3
    · omega
    · rfl
    · rw [List.getElem?_drop]
      congr 1
      omega
    · omega
    · omega
    · rfl
  have hget (p : Nat) (hp : p < contents.length + e.length) : (spliced bs contents index e)[p]? =
      if p < index then contents[p]? else if p < index + e.length then e[p - index]?
      else if p + 1 = contents.length + e.length then contents[p - e.length]? else bs[p]? := by
    unfold spliced
    by_cases hlt : index < contents.length
    · rw [if_pos hlt, getElem?_overwrite _ _ (by rw [length_overwrite (by omega)]; omega), hm hlt]
      split_ifs with h1 h2 h3
      · omega
      · exact hlow p (by omega)
      · rfl
      · rfl
      · rfl
    · rw [if_neg hlt, getElem?_overwrite _ _ (by omega)]
      split_ifs with h1 h2 h3
      · exact hlow p (by omega)
      · rfl
      · omega
      · omega
  constructor
  · intro heq p hp hlt
    have hp' := congrArg (fun l => l[p]?) heq
    simp only [List.getElem?_take, if_pos (show p < contents.length + e.length by omega),
      getElem?_inserted hi, hget p (by omega)] at hp'
    rwa [if_neg (by omega), if_neg (by omega), if_neg (by omega), if_neg (by omega), if_neg (by omega)] at hp'
  intro hin
  refine ext_getElem? fun p => ?_
  rw [List.getElem?_take]
  split_ifs with hp
  · rw [hget p hp, getElem?_inserted hi]
    split_ifs with h1 h2 h3
    · rfl
    · rfl
    · rfl
    · exact hin p (by omega) (by omega)
  · exact (List.getElem?_eq_none (by rw [length_inserted hi]; omega)).symm

theorem insertRest_spec (h : Inv s) {index n : UInt32} {e : Bytes} (hi : index.toNat ≤ s.bb.length.toNat)
    (he : e.length = n.toNat) (hfit : s.bb.length.toNat + n.toNat ≤ s.bb.alloc.toNat)
    (hj : index.toNat < s.bb.length.toNat → s.bb.length.toNat + n.toNat ≤ 2 ^ 31) :
    ∃ s', insertRest index e n s = .ok () s' ∧ Inv s' ∧ s'.bb.length.toNat = s.bb.length.toNat + n.toNat ∧
      s'.bb.cells = spliced s.bb.cells s.bb.contents index.toNat e := by
  have hcells := h.cells
  have hlc := h.length_contents
  have halloc : s.bb.alloc.toNat < 2 ^ 32 := s.bb.alloc.toNat_lt
  have hsum : (s.bb.length + n).toNat = s.bb.length.toNat + n.toNat := by
    rw [UInt32.toNat_add]
    omega
  have hfetch (s₁ : State) : fetch e n.toNat s₁ = .ok e s₁ := by
    rw [fetch_ok he.ge, take_of_length_le he.le]
  by_cases hlt : index.toNat < s.bb.length.toNat
  · have hnew : (s.bb.length + n - 1).toNat = s.bb.length.toNat + n.toNat - 1 := by
      rw [UInt32.toNat_sub_of_le _ _ (UInt32.le_iff_toNat_le.2 (by rw [hsum]; show 1 ≤ _; omega)), hsum]
      rfl
    have hjint : (s.bb.length + n - 1).toInt32.toInt = ((s.bb.length.toNat + n.toNat - 1 : Nat) : Int) := by
      rw [toInt_toInt32, hnew, if_pos (by have := hj hlt; omega)]
    have hback : UInt32.ofInt ((s.bb.length.toNat + n.toNat - 1 : Nat) : Int) = s.bb.length + n - 1 := by
      rw [← hnew]
      exact ofInt_toNat _
    have hsrc : (UInt32.ofInt ((s.bb.length.toNat + n.toNat - 1 : Nat) : Int) - n).toNat = s.bb.length.toNat - 1 := by
      rw [hback, UInt32.toNat_sub_of_le _ _ (UInt32.le_iff_toNat_le.2 (by rw [hnew]; omega)), hnew]
      omega
    obtain ⟨x, hx⟩ : ∃ x, s.bb.cells[s.bb.length.toNat - 1]? = some x :=
      ⟨_, List.getElem?_eq_getElem (by omega)⟩
    obtain ⟨s₁, hs₁, hw₁⟩ := shift_spec hsrc (s.bb.length.toNat - index.toNat) h (by omega) hx (by omega)
    obtain ⟨s₂, hs₂, hw₂⟩ := store_spec (i := index.toNat) e hw₁.inv (by rw [hw₁.alloc]; omega)
    refine ⟨{ s₂ with bb := { s₂.bb with length := s₂.bb.length + n } }, ?_, hw₂.setLength ?_, ?_, ?_⟩
    · rw [insertRest, bind_buffer, hjint, bind_ok hs₁, bind_ok (hfetch s₁), bind_ok hs₂, modify_apply]
    · rw [hw₂.length, hw₁.length, hw₁.alloc, hsum]
      exact hfit
    · show (s₂.bb.length + n).toNat = _
      rw [hw₂.length, hw₁.length, hsum]
    have hdrop : s.bb.contents.drop (s.bb.contents.length - 1) = [x] := by
      have hx' : s.bb.contents[s.bb.length.toNat - 1]? = some x := by
        rw [Bytebuffer.contents, List.getElem?_take, if_pos (by omega), hx]
      obtain ⟨hlt', hx'⟩ := List.getElem?_eq_some_iff.1 hx'
      rw [hlc, drop_eq_getElem_cons hlt', hx', drop_of_length_le (by omega)]
    show s₂.bb.cells = _
    rw [hw₂.cells, hw₁.cells, spliced, hlc, if_pos hlt, ← hlc, hdrop, he, hlc]
  · obtain ⟨s₂, hs₂, hw₂⟩ := store_spec (i := index.toNat) e h (by omega)
    refine ⟨{ s₂ with bb := { s₂.bb with length := s₂.bb.length + n } }, ?_, hw₂.setLength ?_, ?_, ?_⟩
    · rw [insertRest, bind_buffer, Nat.sub_eq_zero_of_le (Nat.not_lt.1 hlt)]
      show (fetch e n.toNat >>= fun e => store index.toNat e >>= fun _ =>
        modify fun bb => { bb with length := bb.length + n }) s = _
      rw [bind_ok (hfetch s), bind_ok hs₂, modify_apply]
    · rw [hw₂.length, hsum]
      exact hfit
    · show (s₂.bb.length + n).toNat = _
      rw [hw₂.length, hsum]
    · show s₂.bb.cells = _
      rw [hw₂.cells, spliced, hlc, if_neg hlt]

/-- After the room was made no operation exits. -/
def NoExit {α : Type} (m : BB α) : Prop := ∀ s, m s ≠ .exit

theorem NoExit.bind {α β : Type} {m : BB α} {k : α → BB β} (hm : NoExit m) (hk : ∀ a, NoExit (k a)) :
    NoExit (m >>= k) := by
  intro s hs
  cases h : m s with
  | ok a s₁ => exact hk a s₁ ((bind_ok h k).symm.trans hs)
  | exit => exact hm s h
  | fault => cases (bind_fault h k).symm.trans hs
  | running => cases (bind_running h k).symm.trans hs

theorem load_noExit (i : Int) (n : Nat) : NoExit (load i n) := by
  intro s hs
  unfold load at hs
  split_ifs at hs

theorem store_noExit (i : Int) (xs : Bytes) : NoExit (store i xs) := by
  intro s hs
  unfold store at hs
  split_ifs at hs

theorem fetch_noExit (bytes : Bytes) (n : Nat) : NoExit (fetch bytes n) := by
  intro s hs
  unfold fetch at hs
  split_ifs at hs

theorem modify_noExit (f : Bytebuffer → Bytebuffer) : NoExit (modify f) := fun _ hs => by cases hs

theorem shift_noExit (j : Int) (n : UInt32) : ∀ count, NoExit (shift j n count)
  | 0 => fun _ hs => by cases hs
  | count + 1 => (load_noExit _ _).bind fun _ => (store_noExit _ _).bind fun _ => shift_noExit j n count

theorem insertRest_noExit (index : UInt32) (e : Bytes) (n : UInt32) : NoExit (insertRest index e n) := fun s =>
  ((shift_noExit _ n _).bind fun _ => (fetch_noExit _ _).bind fun _ => (store_noExit _ _).bind fun _ =>
    modify_noExit _) s

theorem insertRest_behind (h : Inv s) {index n : UInt32} {e : Bytes} (hi : s.bb.length.toNat ≤ index.toNat)
    (he : e.length = n.toNat) (hfit : s.bb.length.toNat + n.toNat ≤ s.bb.alloc.toNat)
    (hin : n ≠ 0 → index.toNat + n.toNat ≤ s.bb.alloc.toNat) :
    ∃ s', insertRest index e n s = .ok () s' ∧ Inv s' := by
  have halloc : s.bb.alloc.toNat < 2 ^ 32 := s.bb.alloc.toNat_lt
  have hsum : (s.bb.length + n).toNat = s.bb.length.toNat + n.toNat := by
    rw [UInt32.toNat_add]
    omega
  have hshape : insertRest index e n s = (store index.toNat e >>= fun _ =>
      modify fun bb => { bb with length := bb.length + n }) s := by
    rw [insertRest, bind_buffer, Nat.sub_eq_zero_of_le hi]
    show (fetch e n.toNat >>= _) s = _
    rw [bind_ok (fetch_ok he.ge), take_of_length_le he.le]
  rw [hshape]
  by_cases hn : n = 0
  · subst hn
    rw [length_eq_zero_iff.1 he]
    exact ⟨_, rfl, h.setLength (by rw [hsum]; exact hfit)⟩
  · obtain ⟨s₂, hs₂, hw₂⟩ := store_spec (i := index.toNat) e h (by rw [he]; exact hin hn)
    exact ⟨_, bind_ok hs₂ _, hw₂.setLength (by rw [hw₂.length, hsum]; exact hfit)⟩

theorem insertRest_fault (h : Inv s) {index n : UInt32} {e : Bytes} (hi : index.toNat ≤ s.bb.length.toNat)
    (he : e.length = n.toNat) (hwrap : s.bb.length.toNat + n.toNat < 2 ^ 32)
    (hbad : s.bb.alloc.toNat < s.bb.length.toNat + n.toNat ∨
      index.toNat < s.bb.length.toNat ∧ 2 ^ 31 < s.bb.length.toNat + n.toNat) :
    insertRest index e n s = .fault := by
  have hle := h.length_le
  have hsum : (s.bb.length + n).toNat = s.bb.length.toNat + n.toNat := by
    rw [UInt32.toNat_add]
    omega
  rw [insertRest, bind_buffer]
  by_cases hlt : index.toNat < s.bb.length.toNat
  · refine bind_fault (shift_fault ?_ (Nat.sub_pos_of_lt hlt)) _
    rintro ⟨h1, h2, -⟩
    have hnew : (s.bb.length + n - 1).toNat = s.bb.length.toNat + n.toNat - 1 := by
      rw [UInt32.toNat_sub_of_le _ _ (UInt32.le_iff_toNat_le.2 (by rw [hsum]; show 1 ≤ _; omega)), hsum]
      rfl
    rw [toInt_toInt32, hnew] at h1 h2
    split_ifs at h1 h2 <;> omega
  rw [Nat.sub_eq_zero_of_le (Nat.not_lt.1 hlt)]
  show (fetch e n.toNat >>= fun e => store index.toNat e >>= fun _ =>
    modify fun bb => { bb with length := bb.length + n }) s = _
  rw [bind_ok (fetch_ok he.ge), take_of_length_le he.le]
  refine bind_fault (store_fault ?_ (length_pos_iff.1 (by omega))) _
  rintro ⟨-, h2, -⟩
  omega

end

/-! ### When an insertion is right -/

/-- The call exits (it may not extend the buffer), or leaves the bytes `e` inserted at `index`. -/
def Inserts (s : State) (index : UInt32) (e : Bytes) (out : Out Unit) : Prop :=
  out = .exit ∨ ∃ s', out = .ok () s' ∧ s'.bb.contents = inserted s.bb.contents index.toNat e ∧
    s'.bb.length.toNat = s.bb.length.toNat + e.length

/-- When the buffer is extended, or need not be: the bytes fit, if there is a tail `j` fits an `int`, and what the
loop leaves where it is is in place. -/
def InsertFits (bb : Bytebuffer) (index : UInt32) (e : Bytes) : Prop :=
  ∀ cells, bb.extended (UInt32.ofNat e.length) = some cells →
    bb.length.toNat + e.length ≤ cells.length ∧
    (index.toNat < bb.length.toNat → bb.length.toNat + e.length ≤ 2 ^ 31) ∧
    InPlace bb.contents index.toNat e.length cells

theorem bbInsertn_iff {s : State} (h : Inv s) {index : UInt32} {e : Bytes} (hi : index ≤ s.bb.length)
    (he : e.length < 2 ^ 32) :
    Inserts s index e (bbInsertn index e (UInt32.ofNat e.length) s) ↔ InsertFits s.bb index e := by
  have hn : e.length = (UInt32.ofNat e.length).toNat := (UInt32.toNat_ofNat_of_lt' he).symm
  have hi' : index.toNat ≤ s.bb.length.toNat := UInt32.le_iff_toNat_le.1 hi
  have hlc := h.length_contents
  have hspec := extend_spec h (UInt32.ofNat e.length)
  have hsplit : bbInsertn index e (UInt32.ofNat e.length) s =
      (extend (UInt32.ofNat e.length) >>= fun _ => insertRest index e (UInt32.ofNat e.length)) s := by
    refine bbInsertn_eq fun s₁ hs₁ => ?_
    rw [hs₁] at hspec
    split at hspec
    · cases hspec
    · split at hspec
      · obtain ⟨s₂, hs₂, hx⟩ := hspec
        cases hs₂
        exact hx.length
      · cases hspec
  rw [hsplit]
  unfold InsertFits
  cases hext : s.bb.extended (UInt32.ofNat e.length) with
  | none =>
    rw [hext] at hspec
    rw [bind_exit hspec]
    exact ⟨fun _ c hc => (by cases hc), fun _ => .inl rfl⟩
  | some cells =>
    rw [hext] at hspec
    dsimp only at hspec
    suffices hmain : Inserts s index e ((extend (UInt32.ofNat e.length) >>= fun _ =>
        insertRest index e (UInt32.ofNat e.length)) s) ↔
        s.bb.length.toNat + e.length ≤ cells.length ∧
        (index.toNat < s.bb.length.toNat → s.bb.length.toNat + e.length ≤ 2 ^ 31) ∧
        InPlace s.bb.contents index.toNat e.length cells by
      rw [hmain]
      exact ⟨fun hc c hc' => (by cases hc'; exact hc), fun hc => hc cells rfl⟩
    split_ifs at hspec with hlen
    · obtain ⟨s₁, hs₁, hx⟩ := hspec
      have hcells : cells.length = s₁.bb.alloc.toNat := by rw [← hx.cells, hx.inv.cells]
      have hcont : s₁.bb.contents = s.bb.contents := by rw [Bytebuffer.contents, hx.cells, hx.length, hx.take]
      rw [bind_ok hs₁]
      have hi₁ : index.toNat ≤ s₁.bb.length.toNat := by rw [hx.length]; exact hi'
      by_cases hwrap : s.bb.length.toNat + e.length < 2 ^ 32
      · by_cases hgood : s.bb.length.toNat + e.length ≤ cells.length ∧
            (index.toNat < s.bb.length.toNat → s.bb.length.toNat + e.length ≤ 2 ^ 31)
        · obtain ⟨s', hs', -, hl', hc'⟩ := insertRest_spec hx.inv hi₁ hn
            (by rw [hx.length, ← hn, ← hcells]; exact hgood.1) (by rw [hx.length, ← hn]; exact hgood.2)
          rw [hx.length, ← hn] at hl'
          rw [hx.cells, hcont] at hc'
          have hiff : (spliced cells s.bb.contents index.toNat e).take (s.bb.contents.length + e.length) = _ ↔ _ :=
            spliced_iff (by rw [hlc]; exact hx.take) (by rw [hlc]; exact hi') (by rw [hlc]; exact hgood.1)
          rw [hlc, ← hc', ← hl'] at hiff
          rw [hs']
          constructor
          · rintro (hexit | ⟨s₂, hs₂, hc₂, -⟩)
            · cases hexit
            · cases hs₂
              exact ⟨hgood.1, hgood.2, hiff.1 hc₂⟩
          · rintro ⟨-, -, hin⟩
            exact .inr ⟨s', rfl, hiff.2 hin, hl'⟩
        · have hf := insertRest_fault (e := e) hx.inv hi₁ hn (by rw [hx.length, ← hn]; exact hwrap) (by
            rw [hx.length, ← hn, ← hcells]
            omega)
          rw [hf]
          constructor
          · rintro (hexit | ⟨s₂, hs₂, -⟩)
            · cases hexit
            · cases hs₂
          · exact fun hc => absurd ⟨hc.1, hc.2.1⟩ hgood
      · constructor
        · rintro (hexit | ⟨s₂, -, -, hl₂⟩)
          · exact absurd hexit (insertRest_noExit _ _ _ _)
          · have := s₂.bb.length.toNat_lt
            omega
        · intro hc
          have := s₁.bb.alloc.toNat_lt
          omega
    · rw [bind_fault hspec]
      constructor
      · rintro (hexit | ⟨s₂, hs₂, -⟩)
        · cases hexit
        · cases hs₂
      · exact fun hc => absurd hc.1 (by omega)

/-- For byte strings and for single bytes. -/
theorem insert_iff {s : State} (h : Inv s) {index : UInt32} (hi : index ≤ s.bb.length) :
    (∀ e : Bytes, e.length < 2 ^ 32 →
      (Inserts s index e (bbInsertn index e (UInt32.ofNat e.length) s) ↔ InsertFits s.bb index e)) ∧
    ∀ c junk : UInt8, Inserts s index [c] (bbInsert index c junk s) ↔ InsertFits s.bb index [c] := by
  refine ⟨fun e he => bbInsertn_iff h hi he, fun c junk => ?_⟩
  have hone : [c].length < 2 ^ 32 := by rw [List.length_singleton]; decide
  rw [← bbInsertn_iff h hi hone]
  rfl

/-- "ab" with room for more: an insertion at the end. -/
theorem insert_iff_end :
    Inserts ⟨⟨false, 8, 2, some ⟨0, [97, 98, 0, 0, 0, 0, 0, 0]⟩⟩, 1, []⟩ 2 [99]
        (bbInsertn 2 [99] 1 ⟨⟨false, 8, 2, some ⟨0, [97, 98, 0, 0, 0, 0, 0, 0]⟩⟩, 1, []⟩) ↔
      InsertFits ⟨false, 8, 2, some ⟨0, [97, 98, 0, 0, 0, 0, 0, 0]⟩⟩ 2 [99] :=
  (insert_iff ⟨by decide, by decide, fun k hk => by cases hk; decide⟩ (by decide)).1 [99] (by decide)

/-- "abc" with room for more: "x" inserted at the start gives "xbcc". -/
theorem insert_loses_tail :
    Inv ⟨⟨false, 8, 3, some ⟨0, [97, 98, 99, 0, 0, 0, 0, 0]⟩⟩, 1, []⟩ ∧
      ¬ Inserts ⟨⟨false, 8, 3, some ⟨0, [97, 98, 99, 0, 0, 0, 0, 0]⟩⟩, 1, []⟩ 0 [120]
        (bbInsertn 0 [120] 1 ⟨⟨false, 8, 3, some ⟨0, [97, 98, 99, 0, 0, 0, 0, 0]⟩⟩, 1, []⟩) := by
  refine ⟨⟨by decide, by decide, fun k hk => by cases hk; decide⟩, ?_⟩
  have hrun : bbInsertn 0 [120] 1 ⟨⟨false, 8, 3, some ⟨0, [97, 98, 99, 0, 0, 0, 0, 0]⟩⟩, 1, []⟩ =
      .ok () ⟨⟨false, 8, 4, some ⟨0, [120, 98, 99, 99, 0, 0, 0, 0]⟩⟩, 1, []⟩ := rfl
  rw [hrun]
  rintro (hexit | ⟨s', hs', hc, -⟩)
  · cases hexit
  · cases hs'
    exact absurd hc (by decide)

end Node9.Buffers
