import Node9.BufferAppend
import Node9.BufferInsert
import Node9.Lib.Steps

/-!
# Runs of buffer operations

A run is a list of operations on one buffer, from `bbNew` on; it stops when the process exits. `Sound` is the
representation: `length` is at most `alloc`, `content` holds `alloc` bytes, and no operation has touched memory
outside of it.

A kernel call that fails leaves `length` at 2^32 - 1, as `length` gets the result of the call (in `Sys_pwrite`,
that of a write). `Fits` is what a step needs to be harmless, and along a run whose steps all meet it every state
is sound.
-/

namespace Node9.Buffers
open Buf Steps

inductive Op
  | new
  | setalloc (sz : UInt32)
  | setlength (sz : UInt32)
  | fill (fill : UInt8)
  | append (turns : Nat) (elem : UInt8)
  | appendn (turns : Nat) (elem : Bytes) (n : UInt32)
  | insert (index : UInt32) (elem junk : UInt8)
  | insertn (index : UInt32) (elem : Bytes) (n : UInt32)
  | cat (turns : Nat) (s : Bytes)
  | catbuf (turns : Nat) (s : Source)
  | headpop
  | tailpop
  | null (turns : Nat)
  | setcontents (contents : Block) (alloc : UInt32)
  | read (nbytes : Int32) (r : Option Bytes)
  | readn (nbytes : Int32) (r : Nat → Option Bytes)
  | pread (nbytes : Int32) (r : Option Bytes)
  | pwrite (nbytes : Int32) (r : Option Nat)

def BB.void {α : Type} (m : BB α) : BB Unit := do
  let _ ← m

def Op.exec : Op → BB Unit
  | new => modify fun _ => bbNew
  | setalloc sz => bbSetalloc sz
  | setlength sz => bbSetlength sz
  | fill c => bbFill c
  | append turns elem => bbAppend turns elem
  | appendn turns elem n => bbAppendn turns (.mem elem) n
  | insert index elem junk => bbInsert index elem junk
  | insertn index elem n => bbInsertn index elem n
  | cat turns s => bbCat turns s
  | catbuf turns s => bbCatbuf turns s
  | headpop => bbHeadpop.void
  | tailpop => bbTailpop.void
  | null turns => bbNull turns
  | setcontents contents alloc => bbSetcontents contents alloc
  | read nbytes r => (Sys_read nbytes r).void
  | readn nbytes r => (Sys_readn nbytes r).void
  | pread nbytes r => (Sys_pread nbytes r).void
  | pwrite nbytes r => (Sys_pwrite nbytes r).void

inductive Status
  | live (s : State)
  | faulted

/-- No step from where the process has exited, or is still in a loop. -/
def step : Status → Op → Option Status
  | .live s, op =>
    match op.exec s with
    | .ok _ s' => some (.live s')
    | .fault => some .faulted
    | .exit => none
    | .running => none
  | .faulted, _ => none

def Sound : Status → Prop
  | .live s => s.bb.length.toNat ≤ s.bb.alloc.toNat ∧ s.bb.cells.length = s.bb.alloc.toNat
  | .faulted => False

/-- The bytes fit behind the room that is made for them, also when `index` is behind the contents. -/
def InsertStays (bb : Bytebuffer) (index n : UInt32) : Prop :=
  ∀ cells, bb.extended n = some cells →
    bb.length.toNat + n.toNat ≤ cells.length ∧
    (index.toNat < bb.length.toNat → bb.length.toNat + n.toNat ≤ 2 ^ 31) ∧
    (n ≠ 0 → index.toNat + n.toNat ≤ cells.length)

/-- The doublings do not wrap, an insertion stays within the storage, a buffer is appended to itself only when
there is room, and no kernel call fails; pointers point to what they are said to. -/
def Fits (s : State) : Op → Prop
  | .setalloc sz => sz = 0 → s.bb.length ≤ doubled s.bb.alloc
  | .append _ _ => Grows (s.bb.length.toNat + 2) s.bb.alloc.toNat
  | .appendn _ elem n =>
    (appendLen elem n).toNat ≤ elem.length ∧
      Grows (s.bb.length.toNat + (appendLen elem n).toNat + 2) s.bb.alloc.toNat
  | .insert index _ _ => InsertStays s.bb index 1
  | .insertn index elem n => n.toNat ≤ elem.length ∧ InsertStays s.bb index n
  | .cat _ str => 0 ∈ str ∧ Grows (s.bb.length.toNat + strlen str + 3) s.bb.alloc.toNat
  | .catbuf _ (.other src) =>
    Holds src ∧ Grows (s.bb.length.toNat + src.length.toNat + 2) s.bb.alloc.toNat
  | .catbuf _ .self =>
    if s.bb.length > 0 then s.bb.length.toNat + s.bb.length.toNat + 2 ≤ s.bb.alloc.toNat
    else Grows 2 s.bb.alloc.toNat
  | .null _ => Grows (s.bb.length.toNat + 2) s.bb.alloc.toNat
  | .setcontents contents alloc => contents.bytes.length = alloc.toNat
  | .read nbytes r => nbytes.toInt < 0 ∨ r.isSome
  | .readn nbytes r => nbytes.toInt < 0 ∨ clip s.bb nbytes.toInt = 0 ∨ (r 0).isSome
  | .pread nbytes r => nbytes.toInt < 0 ∨ r.isSome
  | .pwrite nbytes r => nbytes.toInt < 0 ∨ r.isSome
  | _ => True

/-- An operation that neither faults nor breaks the invariant. -/
def Safe {α : Type} (out : Out α) : Prop := out ≠ .fault ∧ ∀ a s', out = .ok a s' → Inv s'

namespace Safe
variable {α β : Type} {s s' : State}

theorem ok {a : α} (h : Inv s) : Safe (.ok a s) := ⟨fun h => (by cases h), fun a s' h' => (by cases h'; exact h)⟩

theorem exit : Safe (.exit : Out α) := ⟨fun h => (by cases h), fun a s' h => (by cases h)⟩

theorem running : Safe (.running : Out α) := ⟨fun h => (by cases h), fun a s' h => (by cases h)⟩

theorem bind {m : BB α} {k : α → BB β} (h : Safe (m s)) (hk : ∀ a s', m s = .ok a s' → Safe (k a s')) :
    Safe ((m >>= k) s) := by
  cases hm : m s with
  | ok a s' =>
    rw [bind_ok hm]
    exact hk a s' hm
  | exit => rw [bind_exit hm]; exact .exit
  | fault => exact absurd hm h.1
  | running => rw [bind_running hm]; exact .running

theorem void {m : BB α} (h : Safe (m s)) : Safe (m.void s) :=
  h.bind fun a s' hm => .ok (h.2 a s' hm)

theorem of_runs {m : Nat → BB Unit} {need : Nat} {e : Bytes} (h : Runs m s (Joined need s e)) (turns : Nat) :
    Safe (m turns s) := by
  rcases h.safe turns with hr | ⟨s', hok, hj⟩
  · rw [hr]; exact .running
  · rw [hok]; exact .ok hj.inv

end Safe

section Ops
variable {s : State}

theorem setalloc_safe (h : Inv s) {sz : UInt32} (hsz : sz = 0 → s.bb.length ≤ doubled s.bb.alloc) :
    Safe (bbSetalloc sz s) := by
  have hrealloc {sz : UInt32} (hle : s.bb.length.toNat ≤ sz.toNat) : Safe (realloc sz s) := by
    rw [realloc_eq h hle]
    exact .ok (inv_resize h hle)
  unfold bbSetalloc
  rw [bind_buffer]
  split_ifs with h0 h1 h2
  · exact hrealloc (UInt32.le_iff_toNat_le.1 (hsz h0))
  · exact .ok h
  · exact .exit
  · have := mt UInt32.le_iff_toNat_le.2 h1
    exact hrealloc (h.length_le.trans (Nat.le_of_not_le this))

theorem alloc_ge_of_setalloc {s' : State} {sz : UInt32} (hne : sz ≠ 0) (hok : bbSetalloc sz s = .ok () s') :
    sz.toNat ≤ s'.bb.alloc.toNat := by
  unfold bbSetalloc at hok
  rw [bind_buffer, if_neg hne] at hok
  split_ifs at hok with h1 h2
  · cases hok
    exact UInt32.le_iff_toNat_le.1 h1
  · cases hok
  · unfold realloc at hok
    split at hok <;> cases hok
    exact le_rfl

theorem setlength_safe (h : Inv s) (sz : UInt32) : Safe (bbSetlength sz s) := by
  unfold bbSetlength
  rw [bind_buffer]
  split_ifs with hlt
  · have hne : sz ≠ 0 := by
      rintro rfl
      exact absurd (UInt32.lt_iff_toNat_lt.1 hlt) (Nat.not_lt_zero _)
    have hsafe := setalloc_safe h fun h0 => absurd h0 hne
    exact hsafe.bind fun _ s' hok => .ok ((hsafe.2 _ s' hok).setLength (alloc_ge_of_setalloc hne hok))
  · refine .ok (h.setLength ?_)
    have := mt UInt32.lt_iff_toNat_lt.2 hlt
    exact (le_of_not_gt this).trans h.length_le

theorem fill_safe (h : Inv s) (c : UInt8) : Safe (bbFill c s) := by
  obtain ⟨s', hs', hw⟩ := store_spec (i := 0) (List.replicate s.bb.length.toNat c) h
    (by rw [List.length_replicate, zero_add]; exact h.length_le)
  rw [bbFill, bind_buffer]
  exact hs' ▸ .ok hw.inv

theorem fetch_take {elem : Bytes} {n : Nat} (hn : n ≤ elem.length) : fetch elem n = fetch (elem.take n) n := by
  funext s
  rw [fetch_ok hn, fetch_ok (by simp [hn]), List.take_take, min_self]

theorem insertn_safe (h : Inv s) {index n : UInt32} {elem : Bytes} (hn : n.toNat ≤ elem.length)
    (hst : InsertStays s.bb index n) : Safe (bbInsertn index elem n s) := by
  have hrest : insertRest index elem n = insertRest index (elem.take n.toNat) n := by
    unfold insertRest
    rw [fetch_take hn]
  have hlen : (elem.take n.toNat).length = n.toNat := by simp [hn]
  have hspec := extend_spec h n
  have hsplit : bbInsertn index elem n s = (extend n >>= fun _ => insertRest index elem n) s := by
    refine bbInsertn_eq fun s₁ hs₁ => ?_
    rw [hs₁] at hspec
    split at hspec
    · cases hspec
    · split at hspec
      · obtain ⟨s₂, hs₂, hx⟩ := hspec
        cases hs₂
        exact hx.length
      · cases hspec
  rw [hsplit]
  unfold InsertStays at hst
  cases hext : s.bb.extended n with
  | none =>
    rw [hext] at hspec
    rw [bind_exit hspec]
    exact .exit
  | some cells =>
    rw [hext] at hspec
    dsimp only at hspec
    obtain ⟨h1, h2, h3⟩ := hst cells hext
    rw [if_pos (by omega)] at hspec
    obtain ⟨s₁, hs₁, hx⟩ := hspec
    have hcells : cells.length = s₁.bb.alloc.toNat := by rw [← hx.cells, hx.inv.cells]
    rw [bind_ok hs₁, hrest]
    by_cases hi : index.toNat ≤ s₁.bb.length.toNat
    · obtain ⟨s', hs', hinv, -⟩ := insertRest_spec hx.inv hi hlen (by rw [hx.length, ← hcells]; exact h1)
        (by rw [hx.length]; exact h2)
      rw [hs']
      exact .ok hinv
    · obtain ⟨s', hs', hinv⟩ := insertRest_behind hx.inv (Nat.le_of_not_le hi) hlen
        (by rw [hx.length, ← hcells]; exact h1) (by rw [← hcells]; exact h3)
      rw [hs']
      exact .ok hinv

theorem headpop_safe (h : Inv s) : Safe (bbHeadpop s) := by
  have hle := h.length_le
  unfold bbHeadpop
  rw [bind_buffer]
  split_ifs with h0
  · exact .exit
  have hpos : 0 < s.bb.length.toNat := Nat.pos_of_ne_zero fun hz => h0 (UInt32.toNat_inj.1 hz)
  have hl₀ := load_ok (i := 0) (n := 1) h (by omega)
  have hl₁ := load_ok (i := 1) (n := s.bb.length.toNat - 1) h (by omega)
  obtain ⟨s', hs', hw⟩ := store_spec (i := 0) ((s.bb.cells.drop 1).take (s.bb.length.toNat - 1)) h
    (by rw [List.length_take]; omega)
  show Safe ((load ((0 : Nat) : Int) 1 >>= fun pelem => load ((1 : Nat) : Int) (s.bb.length.toNat - 1) >>= _) s)
  rw [bind_ok hl₀, bind_ok hl₁]
  refine (bind_ok hs' _).symm ▸ ?_
  refine .ok (hw.setLength ?_)
  have hsub : (s.bb.length - 1).toNat = s.bb.length.toNat - 1 :=
    UInt32.toNat_sub_of_le _ _ (UInt32.le_iff_toNat_le.2 hpos)
  rw [hw.length, hsub]
  omega

theorem tailpop_safe (h : Inv s) : Safe (bbTailpop s) := by
  have hle := h.length_le
  unfold bbTailpop
  rw [bind_buffer]
  split_ifs with h0
  · exact .exit
  have hpos : 0 < s.bb.length.toNat := Nat.pos_of_ne_zero fun hz => h0 (UInt32.toNat_inj.1 hz)
  have hsub : (s.bb.length - 1).toNat = s.bb.length.toNat - 1 :=
    UInt32.toNat_sub_of_le _ _ (UInt32.le_iff_toNat_le.2 hpos)
  have hl := load_ok (i := (s.bb.length - 1).toNat) (n := 1) h (by rw [hsub]; omega)
  show Safe ((load (((s.bb.length - 1).toNat : Nat) : Int) 1 >>= _) s)
  rw [bind_ok hl]
  exact .ok (h.setLength (by rw [hsub]; omega))

/-! ### The system calls -/

theorem clip_le (bb : Bytebuffer) {nbytes : Int32} (hn : 0 ≤ nbytes.toInt) :
    0 ≤ clip bb nbytes.toInt ∧ clip bb nbytes.toInt ≤ bb.alloc.toNat := by
  have hlt : nbytes.toInt < 2 ^ 31 := Int32.toInt_lt nbytes
  unfold clip
  split_ifs with h
  · rw [toInt_toInt32, if_pos (by omega)]
    omega
  · omega

theorem toNat_ofInt {n : Int} (h0 : 0 ≤ n) (hlt : n < 2 ^ 32) : (UInt32.ofInt n).toNat = n.toNat := by
  obtain ⟨m, rfl⟩ := Int.eq_ofNat_of_zero_le h0
  have hm : ((m : Int) % 2 ^ 32).toNat = m := by omega
  rw [UInt32.ofInt, hm]
  exact UInt32.toNat_ofNat_of_lt' (by show m < 2 ^ 32; omega)

theorem setLength_safe {s' : State} {ret : Int} (h : Inv s') (h0 : 0 ≤ ret) (hle : ret ≤ s'.bb.alloc.toNat) :
    Safe ((setLength ret >>= fun _ => (pure ret : BB Int)) s') := by
  have hlt : s'.bb.alloc.toNat < 2 ^ 32 := s'.bb.alloc.toNat_lt
  refine .ok (h.setLength ?_)
  rw [toNat_ofInt h0 (by omega)]
  omega

theorem kread_some (h : Inv s) (data : Bytes) (off : Nat) {n : Int} (h0 : 0 ≤ n) (hn : off + n ≤ s.bb.alloc.toNat) :
    ∃ s', kread (some data) off n s = .ok ((data.take n.toNat).length : Int) s' ∧
      Writes s off (data.take n.toNat) s' := by
  obtain ⟨s', hs', hw⟩ := store_spec (i := off) (data.take n.toNat) h (by rw [List.length_take]; omega)
  refine ⟨s', ?_, hw⟩
  rw [kread, if_neg (by omega)]
  exact bind_ok hs' _

theorem kread_none (off : Nat) (n : Int) : kread none off n s = .ok (-1) s := by
  unfold kread
  split <;> rfl

theorem read_safe (h : Inv s) {nbytes : Int32} {r : Option Bytes} (hr : nbytes.toInt < 0 ∨ r.isSome) :
    Safe (Sys_read nbytes r s) := by
  unfold Sys_read
  split_ifs with hneg
  · exact .ok h
  obtain ⟨data, rfl⟩ := Option.isSome_iff_exists.1 (hr.resolve_left hneg)
  obtain ⟨h0, hle⟩ := clip_le s.bb (Int.not_lt.1 hneg)
  obtain ⟨s', hs', hw⟩ := kread_some h data 0 h0 (by omega)
  rw [bind_buffer, bind_ok hs']
  refine setLength_safe hw.inv (by omega) ?_
  rw [hw.alloc, List.length_take]
  omega

theorem pwrite_safe (h : Inv s) {nbytes : Int32} {r : Option Nat} (hr : nbytes.toInt < 0 ∨ r.isSome) :
    Safe (Sys_pwrite nbytes r s) := by
  unfold Sys_pwrite
  split_ifs with hneg
  · exact .ok h
  obtain ⟨m, rfl⟩ := Option.isSome_iff_exists.1 (hr.resolve_left hneg)
  obtain ⟨h0, hle⟩ := clip_le s.bb (Int.not_lt.1 hneg)
  have hl := load_ok (i := 0) (n := (clip s.bb nbytes.toInt).toNat) h (by omega)
  have hw : kwrite (some m) (clip s.bb nbytes.toInt) s =
      .ok (min (m : Int) ((clip s.bb nbytes.toInt).toNat : Int)) s := by
    rw [kwrite, if_neg (by omega)]
    show (load ((0 : Nat) : Int) _ >>= _) s = _
    rw [bind_ok hl]
    rfl
  rw [bind_buffer, bind_ok hw]
  exact setLength_safe h (by omega) (by omega)

theorem readnLoop_spec {r : Nat → Option Bytes} {n : Int} (h0 : 0 ≤ n) :
    ∀ (fuel t : Nat) {s : State}, Inv s → (t : Int) ≤ n → n ≤ s.bb.alloc.toNat →
      (t = 0 → n = 0 ∨ (r 0).isSome) →
      ∃ ret s', readnLoop r n fuel t s = .ok ret s' ∧ Inv s' ∧ s'.bb.alloc = s.bb.alloc ∧ 0 ≤ ret ∧ ret ≤ n
  | 0, t, s, h, ht, _, _ => ⟨t, s, rfl, h, rfl, by omega, ht⟩
  | fuel + 1, t, s, h, ht, hn, hr => by
    unfold readnLoop
    by_cases hlt : (t : Int) < n
    · rw [if_pos hlt]
      cases hrt : r t with
      | none =>
        have hpos : t ≠ 0 := by
          rintro rfl
          rcases hr rfl with hz | hz
          · omega
          · rw [hrt] at hz
            cases hz
        rw [bind_ok (kread_none t (n - t)), if_pos (by decide), if_neg hpos]
        exact ⟨t, s, rfl, h, rfl, by omega, ht⟩
      | some data =>
        obtain ⟨s', hs', hw⟩ := kread_some (n := n - t) h data t (by omega) (by omega)
        have hlen : ((data.take (n - t).toNat).length : Int) ≤ n - t := by
          rw [List.length_take]
          omega
        rw [bind_ok hs']
        by_cases hm : ((data.take (n - t).toNat).length : Int) ≤ 0
        · rw [if_pos hm]
          exact ⟨_, s', rfl, hw.inv, hw.alloc, by split <;> omega, by split <;> omega⟩
        · rw [if_neg hm]
          obtain ⟨ret, s₂, hs₂, hinv, halloc, hret⟩ := readnLoop_spec h0 fuel
            (t + ((data.take (n - t).toNat).length : Int).toNat) hw.inv (by omega)
            (by rw [hw.alloc]; exact hn) (fun hz => by omega)
          exact ⟨ret, s₂, hs₂, hinv, halloc.trans hw.alloc, hret⟩
    · rw [if_neg hlt]
      exact ⟨t, s, rfl, h, rfl, by omega, ht⟩

theorem readn_safe (h : Inv s) {nbytes : Int32} {r : Nat → Option Bytes}
    (hr : nbytes.toInt < 0 ∨ clip s.bb nbytes.toInt = 0 ∨ (r 0).isSome) : Safe (Sys_readn nbytes r s) := by
  unfold Sys_readn
  split_ifs with hneg
  · exact .ok h
  · obtain ⟨h0, hle⟩ := clip_le s.bb (Int.not_lt.1 hneg)
    obtain ⟨ret, s', hs', hinv, halloc, hret0, hret⟩ := readnLoop_spec (r := r) h0
      (clip s.bb nbytes.toInt).toNat 0 h (by omega) hle (fun _ => hr.resolve_left hneg)
    rw [bind_buffer, bind_ok hs']
    exact setLength_safe hinv hret0 (by rw [halloc]; omega)

end Ops

theorem Fits.safe {s : State} (h : Inv s) {op : Op} (hf : Fits s op) : Safe (op.exec s) := by
  cases op with
  | new => exact .ok (.new s.next s.freed)
  | setalloc sz => exact setalloc_safe h hf
  | setlength sz => exact setlength_safe h sz
  | fill c => exact fill_safe h c
  | append turns elem => exact .of_runs (bbAppend_runs h hf elem) turns
  | appendn turns elem n => exact .of_runs (bbAppendn_runs h hf.1 hf.2) turns
  | insert index elem junk =>
    exact insertn_safe h (show 1 ≤ 2 by decide) hf
  | insertn index elem n => exact insertn_safe h hf.1 hf.2
  | cat turns memory => exact .of_runs (bbCat_runs memory h hf.1 hf.2) turns
  | catbuf turns src =>
    cases src with
    | other src => exact .of_runs (bbCatbuf_other_runs h hf.1 hf.2) turns
    | self =>
      unfold Fits at hf
      split_ifs at hf with hpos
      · exact .of_runs (bbCatbuf_self_room h hpos hf) turns
      have h0 : s.bb.length.toNat = 0 := Nat.eq_zero_of_not_pos fun hp => hpos (UInt32.lt_iff_toNat_lt.2 hp)
      have hr := bbNull_runs h (by rw [h0]; exact hf)
      have heq : bbCatbuf turns .self s = bbNull turns s := (bbCatbuf_eq turns .self).trans (if_neg hpos)
      show Safe (bbCatbuf turns .self s)
      rw [heq]
      exact .of_runs hr turns
  | headpop => exact (headpop_safe h).void
  | tailpop => exact (tailpop_safe h).void
  | null turns => exact .of_runs (bbNull_runs h hf) turns
  | setcontents contents alloc =>
    refine .ok ⟨zero_le, hf, fun k hk => ?_⟩
    cases hk
    exact lt_of_lt_of_le (Nat.lt_succ_self _) (le_max_right _ _)
  | read nbytes r => exact (read_safe h hf).void
  | readn nbytes r => exact (readn_safe h hf).void
  | pread nbytes r => exact (read_safe h hf).void
  | pwrite nbytes r => exact (pwrite_safe h hf).void

def Kept : Status → Prop
  | .live s => Inv s
  | .faulted => False

def StepFits : Status → Op → Prop
  | .live s, op => Fits s op
  | .faulted, _ => True

theorem step_kept (st : Status) (op : Op) (st' : Status) (h : Kept st) (hf : StepFits st op)
    (hstep : step st op = some st') : Kept st' := by
  cases st with
  | faulted => exact h.elim
  | live s =>
    have hsafe := Fits.safe h hf
    simp only [step] at hstep
    split at hstep
    · rename_i s' hex
      cases hstep
      exact hsafe.2 _ s' hex
    · rename_i hex
      exact absurd hex hsafe.1
    · cases hstep
    · cases hstep

/-- Along every run whose steps fit, from a new buffer on. -/
theorem buffer_always {ops : List Op} (hfit : Along step StepFits (.live ⟨bbNew, 0, []⟩) ops) :
    Always step Sound (.live ⟨bbNew, 0, []⟩) ops := by
  refine (hfit.always step_kept (Inv.new 0 [])).mono fun st h => ?_
  cases st with
  | faulted => exact h
  | live s => exact ⟨h.length_le, h.cells⟩

/-- Room for 1024 bytes, and a read of which the kernel gives two. -/
theorem buffer_always_read :
    Always step Sound (.live ⟨bbNew, 0, []⟩) [.setalloc 1024, .read 10 (some [97, 98])] := by
  refine buffer_always ?_
  intro st₁ h₁
  refine ⟨fun h0 => absurd h0 (by decide), ?_⟩
  cases h₁
  exact fun st₂ h₂ => ⟨.inr rfl, trivial⟩

/-- A read that fails. -/
theorem read_breaks : ¬ Always step Sound (.live ⟨bbNew, 0, []⟩) [.read 10 none] := by
  intro h
  have hrun : run step (.live ⟨bbNew, 0, []⟩) [.read 10 none] = some (.live ⟨⟨false, 0, 4294967295, none⟩, 0,
    []⟩) := rfl
  obtain ⟨hle, -⟩ := h.last hrun
  exact absurd hle (by decide)

end Node9.Buffers
