import Node9.Bytebuffer

/-!
# What the pieces of the buffer operations do

`Inv` is what an operation may rely on: `length` is at most `alloc`, and `content` holds `alloc` bytes. A
reallocation leaves `resize`; the loops that make room double `alloc` until a number `need` of bytes fits, which
`Grows` says they reach before the doubling wraps, and `Grown` is what they leave. `Writes` is what a `store`
within `content` does.
-/

namespace Node9.Buffers
open Buf List

section Monad
variable {α β : Type} {s s' : State}

theorem bind_ok {m : BB α} {a : α} (h : m s = .ok a s') (k : α → BB β) : (m >>= k) s = k a s' := by
  dsimp only [bind]
  rw [h]

theorem bind_exit {m : BB α} (h : m s = .exit) (k : α → BB β) : (m >>= k) s = .exit := by
  dsimp only [bind]
  rw [h]

theorem bind_fault {m : BB α} (h : m s = .fault) (k : α → BB β) : (m >>= k) s = .fault := by
  dsimp only [bind]
  rw [h]

theorem bind_running {m : BB α} (h : m s = .running) (k : α → BB β) : (m >>= k) s = .running := by
  dsimp only [bind]
  rw [h]

@[simp] theorem bind_buffer (k : Bytebuffer → BB β) : (buffer >>= k) s = k s.bb s := rfl

@[simp] theorem bind_modify (f : Bytebuffer → Bytebuffer) (k : Unit → BB β) :
    (modify f >>= k) s = k () { s with bb := f s.bb } := rfl

@[simp] theorem modify_apply (f : Bytebuffer → Bytebuffer) : modify f s = .ok () { s with bb := f s.bb } := rfl

@[simp] theorem pure_apply (a : α) : (pure a : BB α) s = .ok a s := rfl

@[simp] theorem bind_bbFail (k : Unit → BB β) : (bbFail >>= k) s = .exit := rfl

@[simp] theorem bbFail_apply : bbFail s = .exit := rfl

@[simp] theorem stillRunning_apply : stillRunning s = .running := rfl

end Monad

theorem length_overwrite {bytes xs : Bytes} {i : Nat} (h : i + xs.length ≤ bytes.length) :
    (overwrite bytes i xs).length = bytes.length := by
  simp only [overwrite, length_append, length_take, length_drop]
  omega

theorem overwrite_nil (bytes : Bytes) (i : Nat) : overwrite bytes i [] = bytes := by simp [overwrite]

theorem take_overwrite {bytes xs : Bytes} {i n : Nat} (h : i + xs.length ≤ bytes.length) (hn : n ≤ i) :
    (overwrite bytes i xs).take n = bytes.take n := by
  rw [overwrite, append_assoc, take_append_of_le_length (by simp; omega), take_take,
    min_eq_left hn]

theorem take_overwrite_end {bytes xs : Bytes} {i : Nat} (h : i + xs.length ≤ bytes.length) :
    (overwrite bytes i xs).take (i + xs.length) = bytes.take i ++ xs := by
  rw [overwrite, take_append_of_le_length (by simp; omega), take_of_length_le (by simp)]

theorem getElem?_overwrite (bytes xs : Bytes) {i p : Nat} (h : i + xs.length ≤ bytes.length) :
    (overwrite bytes i xs)[p]? = if p < i then bytes[p]? else if p < i + xs.length then xs[p - i]? else bytes[p]? := by
  have hi : (bytes.take i).length = i := by simp; omega
  rw [overwrite, append_assoc, List.getElem?_append, hi]
  split_ifs with h1 h2
  · rw [List.getElem?_take, if_pos h1]
  · rw [List.getElem?_append, if_pos (by omega)]
  · rw [List.getElem?_append, if_neg (by omega), List.getElem?_drop]
    congr 1
    omega

namespace Bytebuffer
variable {b : Bytebuffer}

@[simp] theorem cells_setCells (bytes : Bytes) : (b.setCells bytes).cells = if b.content.isSome then bytes else [] := by
  cases h : b.content <;> simp [setCells, cells, h]

@[simp] theorem length_setCells (bytes : Bytes) : (b.setCells bytes).length = b.length := rfl

@[simp] theorem alloc_setCells (bytes : Bytes) : (b.setCells bytes).alloc = b.alloc := rfl

@[simp] theorem nonextendible_setCells (bytes : Bytes) : (b.setCells bytes).nonextendible = b.nonextendible := rfl

theorem addr_setCells (bytes : Bytes) : (b.setCells bytes).content.map Block.addr = b.content.map Block.addr := by
  cases h : b.content <;> simp [setCells, h]

theorem content_of_cells (h : b.cells ≠ []) : b.content.isSome := by
  cases hc : b.content <;> simp_all [cells]

end Bytebuffer

structure Inv (s : State) : Prop where
  length_le : s.bb.length.toNat ≤ s.bb.alloc.toNat
  cells : s.bb.cells.length = s.bb.alloc.toNat
  /-- No block has had the next address. -/
  addr_lt : ∀ k, s.bb.content = some k → k.addr < s.next

namespace Inv
variable {s : State}

theorem length_contents (h : Inv s) : s.bb.contents.length = s.bb.length.toNat := by
  have := h.length_le
  have := h.cells
  simp only [Bytebuffer.contents, length_take]
  omega

theorem within (h : Inv s) {i n : Nat} : s.bb.Within i n ↔ i + n ≤ s.bb.alloc.toNat := by
  have := h.cells
  simp only [Bytebuffer.Within]
  omega

theorem new (next : Nat) (freed : List Nat) : Inv ⟨bbNew, next, freed⟩ := by
  constructor <;> simp [bbNew, Bytebuffer.cells]

end Inv

/-! ### Loads and stores -/

section Access
variable {s s' : State} {i : Nat} {xs : Bytes}

/-- `s'` is `s` with `xs` written to `content + i`. -/
structure Writes (s : State) (i : Nat) (xs : Bytes) (s' : State) : Prop where
  inv : Inv s'
  cells : s'.bb.cells = overwrite s.bb.cells i xs
  length : s'.bb.length = s.bb.length
  alloc : s'.bb.alloc = s.bb.alloc
  nonextendible : s'.bb.nonextendible = s.bb.nonextendible
  addr : s'.bb.content.map Block.addr = s.bb.content.map Block.addr
  freed : s'.freed = s.freed

theorem store_spec (xs : Bytes) (h : Inv s) (hi : i + xs.length ≤ s.bb.alloc.toNat) :
    ∃ s', store i xs s = .ok () s' ∧ Writes s i xs s' := by
  unfold store
  by_cases hxs : xs = []
  · subst hxs
    exact ⟨s, if_pos rfl, h, (overwrite_nil _ _).symm, rfl, rfl, rfl, rfl, rfl⟩
  rw [if_neg hxs, if_pos (h.within.2 hi)]
  have hb : i + xs.length ≤ s.bb.cells.length := by rw [h.cells]; exact hi
  have hpos : 0 < xs.length := length_pos_iff.2 hxs
  have hc : s.bb.content.isSome := Bytebuffer.content_of_cells (length_pos_iff.1 (by omega))
  refine ⟨_, rfl, ⟨h.length_le, ?_, ?_⟩, by simp [hc], rfl, rfl, rfl, Bytebuffer.addr_setCells _, rfl⟩
  · simp [hc, length_overwrite hb, h.cells]
  · intro k hk
    obtain ⟨k₀, hk₀, rfl⟩ := Option.map_eq_some_iff.1 hk
    exact h.addr_lt k₀ hk₀

theorem store_fault {i : Int} (hi : ¬ s.bb.Within i xs.length) (hxs : xs ≠ []) : store i xs s = .fault := by
  rw [store, if_neg hxs, if_neg hi]

theorem load_ok {n : Nat} (h : Inv s) (hi : i + n ≤ s.bb.alloc.toNat) :
    load i n s = .ok ((s.bb.cells.drop i).take n) s := by
  rw [load, if_pos (.inr (h.within.2 hi))]
  rfl

theorem fetch_ok {bytes : Bytes} {n : Nat} (hn : n ≤ bytes.length) : fetch bytes n s = .ok (bytes.take n) s := if_pos hn

namespace Writes

theorem setLength (h : Writes s i xs s') {n : UInt32} (hn : n.toNat ≤ s.bb.alloc.toNat) :
    Inv { s' with bb := { s'.bb with length := n } } :=
  ⟨by rw [h.alloc]; exact hn, h.inv.cells, h.inv.addr_lt⟩

end Writes

end Access

theorem Inv.setLength {s : State} (h : Inv s) {n : UInt32} (hn : n.toNat ≤ s.bb.alloc.toNat) :
    Inv { s with bb := { s.bb with length := n } } := ⟨hn, h.cells, h.addr_lt⟩

def State.resize (s : State) (sz : UInt32) : State :=
  { s.freeContent with
    bb := { s.bb with
      content := some ⟨s.next, s.bb.contents ++ List.replicate (sz.toNat - s.bb.length.toNat) 0⟩, alloc := sz }
    next := s.next + 1 }

section Resize
variable {s : State} {sz : UInt32}

theorem copied_eq (h : Inv s) (hsz : s.bb.length.toNat ≤ sz.toNat) :
    s.bb.copied sz = some (s.bb.contents ++ List.replicate (sz.toNat - s.bb.length.toNat) 0) := by
  unfold Bytebuffer.copied
  dsimp only
  split_ifs with h1 h2
  · congr 1
    rw [overwrite, take_zero, nil_append, drop_replicate, h.length_contents, zero_add]
  · exact absurd ⟨h.within (i := 0) |>.2 (by have := h.length_le; omega), UInt32.le_iff_toNat_le.2 hsz⟩ h2
  have h0 : s.bb.length.toNat = 0 := by
    by_contra hne
    have hl := h.length_le
    have hc : s.bb.content.isSome := Bytebuffer.content_of_cells (length_pos_iff.1 (by rw [h.cells]; omega))
    exact h1 ⟨UInt32.lt_iff_toNat_lt.2 (by show 0 < s.bb.alloc.toNat; omega),
      UInt32.lt_iff_toNat_lt.2 (by show 0 < s.bb.length.toNat; omega), hc⟩
  rw [Bytebuffer.contents, h0, take_zero, nil_append, Nat.sub_zero]

theorem realloc_eq (h : Inv s) (hsz : s.bb.length.toNat ≤ sz.toNat) : realloc sz s = .ok () (s.resize sz) := by
  rw [realloc, copied_eq h hsz]
  rfl

theorem realloc_fault (h : Inv s) (hsz : sz.toNat < s.bb.length.toNat) : realloc sz s = .fault := by
  have hl := h.length_le
  have hc : s.bb.content.isSome := Bytebuffer.content_of_cells (length_pos_iff.1 (by rw [h.cells]; omega))
  have hn : s.bb.copied sz = none := by
    unfold Bytebuffer.copied
    dsimp only
    rw [if_pos ⟨UInt32.lt_iff_toNat_lt.2 (by show 0 < s.bb.alloc.toNat; omega),
      UInt32.lt_iff_toNat_lt.2 (by show 0 < s.bb.length.toNat; omega), hc⟩, if_neg]
    rintro ⟨-, hle⟩
    exact absurd (UInt32.le_iff_toNat_le.1 hle) (by omega)
  rw [realloc, hn]

theorem cells_resize : (s.resize sz).bb.cells =
    s.bb.contents ++ List.replicate (sz.toNat - s.bb.length.toNat) 0 := rfl

theorem contents_resize (h : Inv s) : (s.resize sz).bb.contents = s.bb.contents := by
  rw [Bytebuffer.contents, cells_resize, take_append_of_le_length (by rw [h.length_contents]; exact le_rfl)]
  exact take_of_length_le (by rw [h.length_contents]; exact le_rfl)

theorem inv_resize (h : Inv s) (hsz : s.bb.length.toNat ≤ sz.toNat) : Inv (s.resize sz) := by
  refine ⟨hsz, ?_, ?_⟩
  · rw [cells_resize, length_append, length_replicate, h.length_contents]
    show _ = sz.toNat
    omega
  · intro k hk
    cases hk
    exact Nat.lt_succ_self _

theorem freed_resize (s : State) (sz : UInt32) :
    (s.resize sz).freed.length = s.freed.length + if s.bb.content.isSome then 1 else 0 := by
  show s.freeContent.freed.length = _
  unfold State.freeContent
  cases s.bb.content <;> rfl

end Resize

/-! ### The loops that make room -/

/-- `sz` when `bbSetalloc` is asked for 0, as long as it does not wrap. -/
def twice (alloc : Nat) : Nat := if alloc = 0 then DEFAULTALLOC.toNat else 2 * alloc

theorem toNat_doubled {a : UInt32} (h : twice a.toNat < 2 ^ 32) : (doubled a).toNat = twice a.toNat := by
  unfold twice at h ⊢
  unfold doubled
  by_cases h0 : a = 0
  · subst h0; rfl
  · have hne : a.toNat ≠ 0 := fun h => h0 (UInt32.toNat_inj.1 h)
    rw [if_neg hne] at h ⊢
    rw [if_pos h0, UInt32.toNat_mul]
    exact Nat.mod_eq_of_lt h

theorem le_twice (a : Nat) : a ≤ twice a := by unfold twice; split <;> omega

theorem lt_twice (a : Nat) : a < twice a := by
  unfold twice
  split
  · subst a; decide
  · omega

/-- `alloc` reaches `need` by doubling before it wraps. -/
def Grows (need alloc : Nat) : Prop := ∃ k, need ≤ twice^[k] alloc ∧ twice^[k] alloc < 2 ^ 32

namespace Grows
variable {need alloc : Nat}

theorem refl (h : need ≤ alloc) (ha : alloc < 2 ^ 32) : Grows need alloc := ⟨0, h, ha⟩

theorem le_iterate (k a : Nat) : a ≤ twice^[k] a := by
  induction k generalizing a with
  | zero => exact le_rfl
  | succ k ih => exact (le_twice a).trans (ih _)

theorem succ (h : Grows need alloc) (hlt : alloc < need) : Grows need (twice alloc) ∧ twice alloc < 2 ^ 32 := by
  obtain ⟨k, hk, hlt'⟩ := h
  cases k with
  | zero => exact absurd hlt (Nat.not_lt.2 hk)
  | succ k => exact ⟨⟨k, hk, hlt'⟩, (le_iterate k _).trans_lt hlt'⟩

theorem of_le (ha : alloc < 2 ^ 32) (hn : need ≤ 2 ^ 31) : Grows need alloc := by
  induction hd : need - alloc using Nat.strong_induction_on generalizing alloc with
  | _ d ih =>
    by_cases hle : need ≤ alloc
    · exact refl hle ha
    have h1 := lt_twice alloc
    have h2 : twice alloc < 2 ^ 32 := by
      unfold twice
      split
      · decide
      · omega
    obtain ⟨k, hk⟩ := ih (need - twice alloc) (by omega) h2 rfl
    exact ⟨k + 1, hk⟩

end Grows

/-- `s'` is `s` with room for `need` bytes. -/
structure Grown (need : Nat) (s s' : State) : Prop where
  inv : Inv s'
  room : need ≤ s'.bb.alloc.toNat
  length : s'.bb.length = s.bb.length
  contents : s'.bb.contents = s.bb.contents
  nonextendible : s'.bb.nonextendible = s.bb.nonextendible
  freed : s.freed.length ≤ s'.freed.length
  same : need ≤ s.bb.alloc.toNat → s' = s
  /-- The old block was given back, and its address is not used again. -/
  moved : s.bb.alloc.toNat < need →
    (s.bb.content.isSome → s.freed.length < s'.freed.length) ∧ ∀ k, s'.bb.content = some k → s.next ≤ k.addr

theorem setalloc_zero {s : State} (h : Inv s) (ht : twice s.bb.alloc.toNat < 2 ^ 32) :
    bbSetalloc 0 s = .ok () (s.resize (doubled s.bb.alloc)) := by
  refine realloc_eq h ?_
  have := h.length_le
  have := le_twice s.bb.alloc.toNat
  rw [toNat_doubled ht]
  omega

namespace Grown
variable {need : Nat} {s s' : State} {sz : UInt32}

theorem refl (h : Inv s) (hroom : need ≤ s.bb.alloc.toNat) : Grown need s s :=
  ⟨h, hroom, rfl, rfl, rfl, le_rfl, fun _ => rfl, fun hlt => absurd hroom (Nat.not_le.2 hlt)⟩

theorem of_resize (h : Inv s) (hlt : s.bb.alloc.toNat < need) (hg : Grown need (s.resize sz) s') :
    Grown need s s' := by
  have hfreed := hg.freed
  rw [freed_resize] at hfreed
  refine ⟨hg.inv, hg.room, hg.length, hg.contents.trans (contents_resize h), hg.nonextendible, by omega,
    fun hle => absurd hle (Nat.not_le.2 hlt), fun _ => ⟨fun hc => ?_, fun k hk => ?_⟩⟩
  · rw [if_pos hc] at hfreed
    omega
  · by_cases hroom : need ≤ (s.resize sz).bb.alloc.toNat
    · rw [hg.same hroom] at hk
      cases hk
      exact le_rfl
    · exact (Nat.le_succ _).trans ((hg.moved (Nat.not_le.1 hroom)).2 k hk)

end Grown

/-- Whatever the number of turns, the loop of `m` runs or it ends in `Q`; and for enough turns it ends. -/
structure Runs (m : Nat → BB Unit) (s : State) (Q : State → Prop) : Prop where
  safe : ∀ turns, m turns s = .running ∨ ∃ s', m turns s = .ok () s' ∧ Q s'
  ends : ∃ k, ∀ turns, k ≤ turns → ∃ s', m turns s = .ok () s'

namespace Runs
variable {m k : Nat → BB Unit} {s : State} {Q R : State → Prop}

theorem bind (h : Runs m s Q) (hk : ∀ s', Q s' → ∀ turns, ∃ s'', k turns s' = .ok () s'' ∧ R s'') :
    Runs (fun turns => m turns >>= fun _ => k turns) s R := by
  refine ⟨fun turns => ?_, ?_⟩
  · rcases h.safe turns with hr | ⟨s', hok, hQ⟩
    · exact .inl (bind_running hr _)
    · obtain ⟨s'', hok', hR⟩ := hk s' hQ turns
      exact .inr ⟨s'', by rw [bind_ok hok]; exact hok', hR⟩
  obtain ⟨n, hn⟩ := h.ends
  refine ⟨n, fun turns hle => ?_⟩
  obtain ⟨s', hok⟩ := hn turns hle
  rcases h.safe turns with hr | ⟨s₁, hok₁, hQ⟩
  · cases hr.symm.trans hok
  · obtain ⟨s'', hok', -⟩ := hk s₁ hQ turns
    exact ⟨s'', by rw [bind_ok hok₁]; exact hok'⟩

theorem of_ok (h : ∀ turns, ∃ s', m turns s = .ok () s' ∧ Q s') : Runs m s Q :=
  ⟨fun turns => .inr (h turns), 0, fun turns _ => let ⟨s', hok, _⟩ := h turns; ⟨s', hok⟩⟩

theorem congr (h : Runs m s Q) (hk : ∀ turns, k turns s = m turns s) : Runs k s Q :=
  ⟨fun turns => by rw [hk]; exact h.safe turns, by simp only [hk]; exact h.ends⟩

theorem of_eq_ok (h : Runs m s Q) {turns : Nat} {s' : State} (hok : m turns s = .ok () s') : Q s' := by
  rcases h.safe turns with hr | ⟨s₁, hok₁, hQ⟩
  · cases hr.symm.trans hok
  · cases hok₁.symm.trans hok
    exact hQ

end Runs

section Grow
variable {full : Bytebuffer → Bool} {need : Nat} {len : UInt32} {s : State}

/-- Full is to have less than `need` bytes. -/
def Full (full : Bytebuffer → Bool) (len : UInt32) (need : Nat) : Prop :=
  ∀ b, b.length = len → b.length.toNat ≤ b.alloc.toNat → (full b = true ↔ b.alloc.toNat < need)

theorem grow_room (hf : Full full len need) (h : Inv s) (hl : s.bb.length = len) (hroom : need ≤ s.bb.alloc.toNat)
    (turns : Nat) : grow full turns s = .ok () s := by
  have hb : ¬ full s.bb = true := by
    rw [hf s.bb hl h.length_le]
    exact Nat.not_lt.2 hroom
  cases turns <;> simp only [grow, bind_buffer, if_neg hb, pure_apply]

theorem grow_turn (hf : Full full len need) (h : Inv s) (hl : s.bb.length = len) (hlt : s.bb.alloc.toNat < need)
    (ht : twice s.bb.alloc.toNat < 2 ^ 32) (turns : Nat) :
    grow full (turns + 1) s = grow full turns (s.resize (doubled s.bb.alloc)) := by
  have hb : full s.bb = true := (hf s.bb hl h.length_le).2 hlt
  simp only [grow, bind_buffer, if_pos hb]
  exact bind_ok (setalloc_zero h ht) _

theorem inv_doubled (h : Inv s) (ht : twice s.bb.alloc.toNat < 2 ^ 32) : Inv (s.resize (doubled s.bb.alloc)) := by
  refine inv_resize h ?_
  rw [toNat_doubled ht]
  exact h.length_le.trans (le_twice _)

theorem alloc_doubled (ht : twice s.bb.alloc.toNat < 2 ^ 32) :
    (s.resize (doubled s.bb.alloc)).bb.alloc.toNat = twice s.bb.alloc.toNat := toNat_doubled ht

theorem grow_safe (hf : Full full len need) (h : Inv s) (hl : s.bb.length = len) (hg : Grows need s.bb.alloc.toNat)
    (turns : Nat) : grow full turns s = .running ∨ ∃ s', grow full turns s = .ok () s' ∧ Grown need s s' := by
  induction turns generalizing s with
  | zero =>
    by_cases hroom : need ≤ s.bb.alloc.toNat
    · exact .inr ⟨s, grow_room hf h hl hroom 0, .refl h hroom⟩
    · left
      have hb : full s.bb = true := (hf s.bb hl h.length_le).2 (Nat.not_le.1 hroom)
      simp only [grow, bind_buffer, if_pos hb, stillRunning_apply]
  | succ turns ih =>
    by_cases hroom : need ≤ s.bb.alloc.toNat
    · exact .inr ⟨s, grow_room hf h hl hroom _, .refl h hroom⟩
    have hlt := Nat.not_le.1 hroom
    obtain ⟨hg', ht⟩ := hg.succ hlt
    rw [grow_turn hf h hl hlt ht]
    rw [← alloc_doubled ht] at hg'
    rcases ih (inv_doubled h ht) hl hg' with hr | ⟨s', hok, hgr⟩
    · exact .inl hr
    · exact .inr ⟨s', hok, hgr.of_resize h hlt⟩

theorem grow_ends (hf : Full full len need) (h : Inv s) (hl : s.bb.length = len) (hg : Grows need s.bb.alloc.toNat) :
    ∃ k, ∀ turns, k ≤ turns → ∃ s', grow full turns s = .ok () s' := by
  obtain ⟨k, hk⟩ := hg
  refine ⟨k, ?_⟩
  induction k generalizing s with
  | zero => exact fun turns _ => ⟨s, grow_room hf h hl hk.1 turns⟩
  | succ k ih =>
    intro turns hle
    by_cases hroom : need ≤ s.bb.alloc.toNat
    · exact ⟨s, grow_room hf h hl hroom turns⟩
    have hlt := Nat.not_le.1 hroom
    have ht : twice s.bb.alloc.toNat < 2 ^ 32 := (Grows.le_iterate k _).trans_lt hk.2
    cases turns with
    | zero => exact absurd hle (Nat.not_succ_le_zero k)
    | succ turns =>
      rw [grow_turn hf h hl hlt ht]
      exact ih (inv_doubled h ht) hl (by rw [alloc_doubled ht]; exact hk) turns (Nat.le_of_succ_le_succ hle)

theorem grow_runs (hf : Full full len need) (h : Inv s) (hl : s.bb.length = len) (hg : Grows need s.bb.alloc.toNat) :
    Runs (grow full) s (Grown need s) :=
  ⟨grow_safe hf h hl hg, grow_ends hf h hl hg⟩

end Grow

section Append
variable {s s' : State} {e : Bytes}

/-- `s'` is `s` with `e` behind the contents and a null behind it. -/
structure Appended (s : State) (e : Bytes) (s' : State) : Prop where
  inv : Inv s'
  contents : s'.bb.contents = s.bb.contents ++ e
  length : s'.bb.length.toNat = s.bb.length.toNat + e.length
  null : s'.bb.cells[s.bb.length.toNat + e.length]? = some 0
  alloc : s'.bb.alloc = s.bb.alloc
  nonextendible : s'.bb.nonextendible = s.bb.nonextendible
  addr : s'.bb.content.map Block.addr = s.bb.content.map Block.addr
  freed : s'.freed = s.freed

/-- What `bbAppend` and `bbAppendn` do when there is room: copy, set the length, terminate. -/
def appendTail (e : Bytes) (n : UInt32) : BB Unit := do
  let bb ← buffer
  store bb.length.toNat e
  modify fun bb => { bb with length := bb.length + n }
  store (bb.length + n).toNat [0]

theorem appendTail_spec (h : Inv s) (hroom : s.bb.length.toNat + e.length + 1 ≤ s.bb.alloc.toNat) {n : UInt32}
    (hn : n.toNat = e.length) : ∃ s', appendTail e n s = .ok () s' ∧ Appended s e s' := by
  have hcells := h.cells
  have hlt : s.bb.alloc.toNat < 2 ^ 32 := s.bb.alloc.toNat_lt
  have hsum : (s.bb.length + n).toNat = s.bb.length.toNat + e.length := by
    rw [UInt32.toNat_add, hn]
    omega
  obtain ⟨s₁, hs₁, hw₁⟩ := store_spec (i := s.bb.length.toNat) e h (by omega)
  have hi₁ := hw₁.setLength (n := s.bb.length + n) (by omega)
  obtain ⟨s₂, hs₂, hw₂⟩ := store_spec (i := (s.bb.length + n).toNat) [0] hi₁
    (by show _ ≤ s₁.bb.alloc.toNat; rw [hw₁.alloc, length_singleton]; omega)
  have hfit : s.bb.length.toNat + e.length + [(0 : UInt8)].length ≤ s₁.bb.cells.length := by
    rw [hw₁.inv.cells, hw₁.alloc]
    exact hroom
  refine ⟨s₂, ?_, hw₂.inv, ?_, ?_, ?_, hw₂.alloc.trans hw₁.alloc, hw₂.nonextendible.trans hw₁.nonextendible,
    hw₂.addr.trans hw₁.addr, hw₂.freed.trans hw₁.freed⟩
  · unfold appendTail
    rw [bind_buffer, bind_ok hs₁, bind_modify, hw₁.length]
    exact hs₂
  · have hc : s₂.bb.cells = overwrite s₁.bb.cells (s.bb.length.toNat + e.length) [0] := by
      rw [hw₂.cells, hsum]
      rfl
    show s₂.bb.cells.take s₂.bb.length.toNat = _
    rw [hw₂.length, hsum, hc, take_overwrite hfit le_rfl, hw₁.cells, take_overwrite_end (by omega)]
    rfl
  · rw [hw₂.length, hsum]
  · have hc : s₂.bb.cells = overwrite s₁.bb.cells (s.bb.length.toNat + e.length) [0] := by
      rw [hw₂.cells, hsum]
      rfl
    rw [hc, getElem?_overwrite _ _ hfit]
    simp

end Append

end Node9.Buffers
