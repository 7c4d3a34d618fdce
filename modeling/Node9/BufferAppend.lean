import Node9.BufferSpec

/-!
# Appending to a buffer

`Joined need s e s'`: `s'` is `s` with `e` behind the contents, terminated within `alloc`, after room was made
for `need` bytes. Each of `bbAppend`, `bbAppendn`, `bbCat` and `bbCatbuf` ends so when the doubling of `alloc`
reaches what it needs.

The doubling passes by the check that protects storage of the caller: a buffer from `bbSetcontents` that is too
short is reallocated, and its storage freed. `Suits` says of each call when that does not happen, and
`AppendsAndKeeps` what each call should do (`appends_iff`).
-/

namespace Node9.Buffers
open Buf List

/-! ### The loops and the calls -/

theorem full_noSpace {len : UInt32} (h : len.toNat + 2 ≤ 2 ^ 32) : Full noSpace len (len.toNat + 2) := by
  rintro b rfl -
  have h1 : (b.length + 1).toNat = b.length.toNat + 1 := by
    rw [UInt32.toNat_add]
    show (b.length.toNat + 1) % 2 ^ 32 = _
    omega
  simp only [noSpace, ge_iff_le, decide_eq_true_eq, UInt32.le_iff_toNat_le, h1]
  omega

theorem full_bbNeed (len n : UInt32) (h : n.toNat + 2 ≤ 2 ^ 32) :
    Full (fun bb => !bbNeed bb (n + 1)) len (len.toNat + n.toNat + 2) := by
  rintro b rfl hle
  have h1 : (n + 1).toNat = n.toNat + 1 := by
    rw [UInt32.toNat_add]
    show (n.toNat + 1) % 2 ^ 32 = _
    omega
  have h2 : (b.alloc - b.length).toNat = b.alloc.toNat - b.length.toNat :=
    UInt32.toNat_sub_of_le b.alloc b.length (UInt32.le_iff_toNat_le.2 hle)
  simp only [bbNeed, gt_iff_lt, Bool.not_eq_true', decide_eq_false_iff_not, UInt32.lt_iff_toNat_lt, h1, h2]
  omega

/-- `s'` is `s` with `e` behind the contents, after room was made for `need` bytes. -/
structure Joined (need : Nat) (s : State) (e : Bytes) (s' : State) : Prop where
  inv : Inv s'
  room : need ≤ s'.bb.alloc.toNat
  contents : s'.bb.contents = s.bb.contents ++ e
  length : s'.bb.length.toNat = s.bb.length.toNat + e.length
  null : s'.bb.cells[s.bb.length.toNat + e.length]? = some 0
  nonextendible : s'.bb.nonextendible = s.bb.nonextendible
  kept : need ≤ s.bb.alloc.toNat → s'.bb.content.map Block.addr = s.bb.content.map Block.addr ∧ s'.freed = s.freed
  moved : s.bb.alloc.toNat < need → s.bb.content.isSome → s.freed.length < s'.freed.length

namespace Joined
variable {need : Nat} {s s₁ s' : State} {e : Bytes}

theorem mk' (hg : Grown need s s₁) (ha : Appended s₁ e s') : Joined need s e s' where
  inv := ha.inv
  room := by rw [ha.alloc]; exact hg.room
  contents := by rw [ha.contents, hg.contents]
  length := by rw [ha.length, hg.length]
  null := by rw [← hg.length]; exact ha.null
  nonextendible := ha.nonextendible.trans hg.nonextendible
  kept hroom := by
    have := hg.same hroom
    subst this
    exact ⟨ha.addr, ha.freed⟩
  moved hlt hc := by
    rw [ha.freed]
    exact (hg.moved hlt).1 hc

theorem null_lt (h : Joined need s e s') : s'.bb.length.toNat < s'.bb.alloc.toNat := by
  obtain ⟨hlt, -⟩ := List.getElem?_eq_some_iff.1 h.null
  rw [h.length, ← h.inv.cells]
  exact hlt

theorem pop (h : Joined need s (e ++ [0]) s') :
    Joined need s e { s' with bb := { s'.bb with length := s'.bb.length - 1 } } := by
  have hlen := h.length
  rw [length_append, length_singleton] at hlen
  have hsub : (s'.bb.length - 1).toNat = s.bb.length.toNat + e.length := by
    rw [UInt32.toNat_sub_of_le _ _ (UInt32.le_iff_toNat_le.2 (by show 1 ≤ _; omega))]
    show s'.bb.length.toNat - 1 = _
    omega
  have hle := h.inv.length_le
  have hcont := h.contents
  have hfull : s'.bb.cells.take (s.bb.length.toNat + e.length + 1) = s.bb.contents ++ (e ++ [0]) := by
    rw [← hcont, Bytebuffer.contents, hlen, ← add_assoc]
  have hce : (s.bb.contents ++ e).length = s.bb.length.toNat + e.length := by
    have hl := congrArg List.length hfull
    have hc := h.inv.cells
    simp only [length_take, length_append, length_singleton] at hl ⊢
    omega
  refine ⟨h.inv.setLength (by omega), h.room, ?_, hsub, ?_, h.nonextendible, h.kept, h.moved⟩
  · have hpop := congrArg (List.take (s.bb.length.toNat + e.length)) hfull
    rw [take_take, min_eq_left (Nat.le_succ _), ← append_assoc, ← hce,
      take_left] at hpop
    show s'.bb.cells.take (s'.bb.length - 1).toNat = _
    rw [hsub, ← hce, hpop]
  · have hget := congrArg (fun l => l[s.bb.length.toNat + e.length]?) hfull
    simp only [List.getElem?_take] at hget
    rw [if_pos (Nat.lt_succ_self _)] at hget
    show s'.bb.cells[s.bb.length.toNat + e.length]? = _
    rw [hget, ← append_assoc, ← hce, List.getElem?_concat_length]

theorem trans {e' : Bytes} {need' : Nat} (h : Joined need s e s₁) (h' : Joined need' s₁ e' s')
    (hroom : need' ≤ s₁.bb.alloc.toNat) (hn : need ≤ s'.bb.alloc.toNat) : Joined need s (e ++ e') s' where
  inv := h'.inv
  room := hn
  contents := by rw [h'.contents, h.contents, append_assoc]
  length := by rw [h'.length, h.length, length_append, add_assoc]
  null := by rw [length_append, ← add_assoc, ← h.length]; exact h'.null
  nonextendible := h'.nonextendible.trans h.nonextendible
  kept hle := ⟨(h'.kept hroom).1.trans (h.kept hle).1, (h'.kept hroom).2.trans (h.kept hle).2⟩
  moved hlt hc := by
    rw [(h'.kept hroom).2]
    exact h.moved hlt hc

end Joined

section Calls
variable {s s' : State} {e : Bytes} {need : Nat}

theorem append_runs {full : Bytebuffer → Bool} {n : UInt32} (hf : Full full s.bb.length need) (h : Inv s)
    (hg : Grows need s.bb.alloc.toNat) (hn : n.toNat = e.length)
    (hneed : s.bb.length.toNat + e.length + 1 ≤ need) :
    Runs (fun turns => grow full turns >>= fun _ => appendTail e n) s (Joined need s e) := by
  refine (grow_runs hf h rfl hg).bind fun s₁ hs₁ _ => ?_
  obtain ⟨s₂, hs₂, ha⟩ := appendTail_spec (e := e) hs₁.inv
    (by rw [hs₁.length]; exact hneed.trans hs₁.room) hn
  exact ⟨s₂, hs₂, .mk' hs₁ ha⟩

theorem Grows.lt {need alloc : Nat} (h : Grows need alloc) : need < 2 ^ 32 :=
  let ⟨_, h1, h2⟩ := h
  h1.trans_lt h2

theorem bbAppend_runs (h : Inv s) (hg : Grows (s.bb.length.toNat + 2) s.bb.alloc.toNat) (elem : UInt8) :
    Runs (fun turns => bbAppend turns elem) s (Joined (s.bb.length.toNat + 2) s [elem]) :=
  append_runs (full_noSpace hg.lt.le) h hg rfl le_rfl

theorem bbNull_runs (h : Inv s) (hg : Grows (s.bb.length.toNat + 2) s.bb.alloc.toNat) :
    Runs bbNull s (Joined (s.bb.length.toNat + 2) s []) :=
  (bbAppend_runs h hg 0).bind fun _ hs₁ _ => ⟨_, rfl, Joined.pop hs₁⟩

/-- `n` of `bbAppendn`. -/
def appendLen (bytes : Bytes) (n0 : UInt32) : UInt32 := if n0 = 0 then UInt32.ofNat (strlen bytes) else n0

theorem bbAppendn_runs {bytes : Bytes} {n0 : UInt32} (h : Inv s) (hn : (appendLen bytes n0).toNat ≤ bytes.length)
    (hg : Grows (s.bb.length.toNat + (appendLen bytes n0).toNat + 2) s.bb.alloc.toNat) :
    Runs (fun turns => bbAppendn turns (.mem bytes) n0) s
      (Joined (s.bb.length.toNat + (appendLen bytes n0).toNat + 2) s (bytes.take (appendLen bytes n0).toNat)) := by
  have hlt := hg.lt
  have hlen : (bytes.take (appendLen bytes n0).toNat).length = (appendLen bytes n0).toNat := by simp [hn]
  refine (append_runs (e := bytes.take (appendLen bytes n0).toNat) (n := appendLen bytes n0)
    (full_bbNeed _ _ (by omega)) h hg hlen.symm (by rw [hlen]; omega)).congr fun turns => ?_
  rw [bbAppendn, bind_buffer]
  change (grow (fun bb => !bbNeed bb (appendLen bytes n0 + 1)) turns >>= _) s = _
  cases hgr : grow (fun bb => !bbNeed bb (appendLen bytes n0 + 1)) turns s with
  | ok _ s₁ =>
    rw [bind_ok hgr, bind_ok hgr, bind_buffer]
    exact bind_ok (fetch_ok hn) _
  | exit => rw [bind_exit hgr, bind_exit hgr]
  | fault => rw [bind_fault hgr, bind_fault hgr]
  | running => rw [bind_running hgr, bind_running hgr]

theorem bbAppendn_mem_runs (bytes : Bytes) {n0 : UInt32} (h : Inv s) (hn0 : n0 ≠ 0) (hn : n0.toNat ≤ bytes.length)
    (hg : Grows (s.bb.length.toNat + n0.toNat + 2) s.bb.alloc.toNat) :
    Runs (fun turns => bbAppendn turns (.mem bytes) n0) s
      (Joined (s.bb.length.toNat + n0.toNat + 2) s (bytes.take n0.toNat)) := by
  have heq : appendLen bytes n0 = n0 := if_neg hn0
  have hr := bbAppendn_runs h (by rw [heq]; exact hn) (by rw [heq]; exact hg)
  rwa [heq] at hr

/-- The string in the memory behind a pointer. -/
def cstring (memory : Bytes) : Bytes := memory.takeWhile (· ≠ 0)

theorem take_strlen {memory : Bytes} (h : 0 ∈ memory) : memory.take (strlen memory + 1) = cstring memory ++ [0] := by
  unfold strlen cstring
  induction memory with
  | nil => cases h
  | cons c memory ih =>
    by_cases hc : c = 0
    · subst hc; rfl
    · have hmem : 0 ∈ memory := (mem_cons.1 h).resolve_left (Ne.symm hc)
      rw [takeWhile_cons_of_pos (by simpa using hc), length_cons, take_succ_cons, ih hmem]
      rfl

theorem bbCat_runs (memory : Bytes) (h : Inv s) (hm : 0 ∈ memory)
    (hg : Grows (s.bb.length.toNat + strlen memory + 3) s.bb.alloc.toNat) :
    Runs (fun turns => bbCat turns memory) s (Joined (s.bb.length.toNat + strlen memory + 3) s (cstring memory)) := by
  have hlt := hg.lt
  have hn : (UInt32.ofNat (strlen memory + 1)).toNat = strlen memory + 1 :=
    UInt32.toNat_ofNat_of_lt' (by show _ < 2 ^ 32; omega)
  have hne : UInt32.ofNat (strlen memory + 1) ≠ 0 := fun h0 => by
    have := congrArg UInt32.toNat h0
    rw [hn] at this
    exact absurd this (Nat.succ_ne_zero _)
  have hle : strlen memory + 1 ≤ memory.length := by
    have := congrArg List.length (take_strlen hm)
    rw [length_take, length_append, length_singleton] at this
    change min (strlen memory + 1) memory.length = strlen memory + 1 at this
    omega
  have hr := bbAppendn_mem_runs memory h hne (by rw [hn]; exact hle) (by rw [hn]; exact hg)
  rw [hn, take_strlen hm] at hr
  refine hr.bind (k := fun _ => do
    let bb ← buffer
    if bb.length = 0 then bbFail
    else modify fun bb => { bb with length := bb.length - 1 }) fun s₁ hs₁ _ => ?_
  have hl := hs₁.length
  rw [length_append, length_singleton] at hl
  have hne : s₁.bb.length ≠ 0 := fun h0 => by
    rw [h0] at hl
    exact absurd hl (by show 0 ≠ _; omega)
  refine ⟨_, ?_, Joined.pop hs₁⟩
  rw [bind_buffer, if_neg hne, modify_apply]

theorem cstring_append_null {str : Bytes} (h : ∀ c ∈ str, c ≠ 0) : cstring (str ++ [0]) = str := by
  unfold cstring
  rw [takeWhile_append_of_pos (by simpa using h)]
  simp

theorem strlen_append_null {str : Bytes} (h : ∀ c ∈ str, c ≠ 0) : strlen (str ++ [0]) = str.length :=
  congrArg List.length (cstring_append_null h)

theorem append_room {full : Bytebuffer → Bool} {n : UInt32} (hf : Full full s.bb.length need) (h : Inv s)
    (hroom : need ≤ s.bb.alloc.toNat) (hn : n.toNat = e.length) (hneed : s.bb.length.toNat + e.length + 1 ≤ need)
    (turns : Nat) :
    ∃ s', (grow full turns >>= fun _ => appendTail e n) s = .ok () s' ∧ Joined need s e s' := by
  obtain ⟨s', hs', ha⟩ := appendTail_spec (e := e) h (hneed.trans hroom) hn
  exact ⟨s', by rw [bind_ok (grow_room hf h rfl hroom turns)]; exact hs', .mk' (.refl h hroom) ha⟩

theorem bbNull_room (h : Inv s) (hroom : s.bb.length.toNat + 2 ≤ s.bb.alloc.toNat) (turns : Nat) :
    ∃ s', bbNull turns s = .ok () s' ∧ Joined (s.bb.length.toNat + 2) s [] s' := by
  have hlt : s.bb.alloc.toNat < 2 ^ 32 := s.bb.alloc.toNat_lt
  obtain ⟨s₁, hs₁, hj⟩ := append_room (e := [0]) (n := 1) (full_noSpace (by omega)) h hroom rfl le_rfl turns
  refine ⟨_, ?_, Joined.pop hj⟩
  have hs₁' : bbAppend turns 0 s = .ok () s₁ := hs₁
  rw [bbNull, bind_ok hs₁', modify_apply]

theorem null_after {m : Nat → BB Unit} (hr : Runs m s (Joined need s e))
    (hneed : s.bb.length.toNat + e.length + 2 = need) :
    Runs (fun turns => m turns >>= fun _ => bbNull turns) s (Joined need s e) := by
  refine hr.bind fun s₁ hs₁ turns => ?_
  have hl := hs₁.length
  have hroom : s₁.bb.length.toNat + 2 ≤ s₁.bb.alloc.toNat := by
    rw [hl, hneed]
    exact hs₁.room
  obtain ⟨s₂, hs₂, hj⟩ := bbNull_room hs₁.inv hroom turns
  refine ⟨s₂, hs₂, ?_⟩
  have := hs₁.trans hj hroom (by rw [← hneed, ← hl]; exact hj.room)
  rwa [append_nil] at this

/-- What is asked of a buffer that is read. -/
structure Holds (b : Bytebuffer) : Prop where
  length_le : b.length.toNat ≤ b.alloc.toNat
  cells : b.cells.length = b.alloc.toNat

theorem bbCatbuf_eq (turns : Nat) (src : Source) :
    bbCatbuf turns src s =
      if (src.get s.bb).length > 0 then
        (bbAppendn turns (bbContents s.bb src) (src.get s.bb).length >>= fun _ => bbNull turns) s
      else bbNull turns s := by
  unfold bbCatbuf
  rw [bind_buffer]
  split <;> rfl

theorem bbCatbuf_other_runs {src : Bytebuffer} (h : Inv s) (hsrc : Holds src)
    (hg : Grows (s.bb.length.toNat + src.length.toNat + 2) s.bb.alloc.toNat) :
    Runs (fun turns => bbCatbuf turns (.other src)) s
      (Joined (s.bb.length.toNat + src.length.toNat + 2) s src.contents) := by
  have hle := hsrc.length_le
  have hcells := hsrc.cells
  have hlen : src.contents.length = src.length.toNat := by
    rw [Bytebuffer.contents, length_take]
    omega
  by_cases hpos : src.length > 0
  · have hpos' : 0 < src.length.toNat := UInt32.lt_iff_toNat_lt.1 hpos
    have hc : src.content.isSome := Bytebuffer.content_of_cells (length_pos_iff.1 (by omega))
    refine (null_after (bbAppendn_mem_runs src.cells h
      (UInt32.pos_iff_ne_zero.1 hpos) (by omega) hg) (by rw [← Bytebuffer.contents, hlen])).congr fun turns => ?_
    rw [bbCatbuf_eq]
    refine (if_pos hpos).trans ?_
    rw [bbContents, if_pos hc]
    rfl
  have h0 : src.length = 0 := by
    rw [gt_iff_lt, UInt32.pos_iff_ne_zero, not_not] at hpos
    exact hpos
  have he : src.contents = [] := by rw [Bytebuffer.contents, h0]; rfl
  rw [h0] at hg ⊢
  rw [he]
  refine (bbNull_runs h hg).congr fun turns => ?_
  rw [bbCatbuf_eq]
  exact if_neg hpos

section Self
variable {k : Block}

theorem append_self_eq (hk : s.bb.content = some k) (hpos : s.bb.length > 0) (turns : Nat) :
    bbCatbuf turns .self s = (bbAppendn turns (.block k.addr) s.bb.length >>= fun _ => bbNull turns) s := by
  rw [bbCatbuf_eq]
  refine (if_pos hpos).trans ?_
  rw [bbContents, hk]
  rfl

theorem bbCatbuf_self_room (h : Inv s) (hpos : s.bb.length > 0)
    (hroom : s.bb.length.toNat + s.bb.length.toNat + 2 ≤ s.bb.alloc.toNat) :
    Runs (fun turns => bbCatbuf turns .self) s
      (Joined (s.bb.length.toNat + s.bb.length.toNat + 2) s s.bb.contents) := by
  have hlt : s.bb.alloc.toNat < 2 ^ 32 := s.bb.alloc.toNat_lt
  have hcells := h.cells
  have hne : s.bb.length ≠ 0 := UInt32.pos_iff_ne_zero.1 hpos
  have hpos' : 0 < s.bb.length.toNat := UInt32.lt_iff_toNat_lt.1 hpos
  obtain ⟨k, hk⟩ := Option.isSome_iff_exists.1
    (Bytebuffer.content_of_cells (length_pos_iff.1 (by rw [hcells]; omega)))
  have hf : Full (fun bb => !bbNeed bb (s.bb.length + 1)) s.bb.length
      (s.bb.length.toNat + s.bb.length.toNat + 2) := full_bbNeed _ _ (by omega)
  have happ : Runs (fun turns => bbAppendn turns (.block k.addr) s.bb.length) s
      (Joined (s.bb.length.toNat + s.bb.length.toNat + 2) s s.bb.contents) := by
    refine .of_ok fun turns => ?_
    obtain ⟨s', hs', hj⟩ := append_room (e := s.bb.contents) (n := s.bb.length) hf h hroom
      h.length_contents.symm (by rw [h.length_contents]; omega) turns
    refine ⟨s', ?_, hj⟩
    have hb : Elem.bytes s.bb (.block k.addr) = s.bb.cells := by simp [Elem.bytes, Bytebuffer.cells, hk]
    rw [bind_ok (grow_room hf h rfl hroom turns)] at hs'
    simp only [bbAppendn, bind_buffer, if_neg hne]
    rw [bind_ok (grow_room hf h rfl hroom turns), bind_buffer, hb, bind_ok (fetch_ok (by omega))]
    exact hs'
  exact (null_after happ (by rw [h.length_contents])).congr fun turns => append_self_eq hk hpos turns

theorem bbCatbuf_self_fault (h : Inv s) (hpos : s.bb.length > 0)
    (hlt : s.bb.alloc.toNat < s.bb.length.toNat + s.bb.length.toNat + 2)
    (hg : Grows (s.bb.length.toNat + s.bb.length.toNat + 2) s.bb.alloc.toNat) (turns : Nat) :
    bbCatbuf turns .self s = .running ∨ bbCatbuf turns .self s = .fault := by
  have hcells := h.cells
  have hlt' := hg.lt
  have hle := h.length_le
  have hne : s.bb.length ≠ 0 := UInt32.pos_iff_ne_zero.1 hpos
  have hpos' : 0 < s.bb.length.toNat := UInt32.lt_iff_toNat_lt.1 hpos
  obtain ⟨k, hk⟩ := Option.isSome_iff_exists.1
    (Bytebuffer.content_of_cells (length_pos_iff.1 (by rw [hcells]; omega)))
  rw [append_self_eq hk hpos]
  rcases grow_safe (full_bbNeed s.bb.length s.bb.length (by omega)) h rfl hg turns with
    hr | ⟨s₁, hs₁, hgr⟩
  · left
    refine bind_running ?_ _
    simp only [bbAppendn, bind_buffer, if_neg hne]
    exact bind_running hr _
  right
  refine bind_fault ?_ _
  simp only [bbAppendn, bind_buffer, if_neg hne]
  rw [bind_ok hs₁, bind_buffer]
  have hb : Elem.bytes s₁.bb (.block k.addr) = [] := by
    unfold Elem.bytes
    cases hk₁ : s₁.bb.content with
    | none => rfl
    | some k₁ =>
      have h1 := (hgr.moved hlt).2 k₁ hk₁
      have h2 := h.addr_lt k hk
      exact if_neg (by omega)
  rw [hb]
  exact bind_fault (if_neg (by simp; omega)) _

end Self

end Calls

/-! ### When the calls do what they should -/

/-- The calls that append, and those that handle the storage. -/
inductive Call
  | append (elem : UInt8)
  | appendn (e : Bytes)
  | cat (str : Bytes)
  | catbuf (s : Source)
  | null
  | setalloc (sz : UInt32)
  | setlength (sz : UInt32)
  | setcontents (contents : Block) (alloc : UInt32)
  | free

namespace Call

def run (turns : Nat) : Call → BB Unit
  | append elem => bbAppend turns elem
  | appendn e => bbAppendn turns (.mem e) (UInt32.ofNat e.length)
  | cat str => bbCat turns (str ++ [0])
  | catbuf s => bbCatbuf turns s
  | null => bbNull turns
  | setalloc sz => bbSetalloc sz
  | setlength sz => bbSetlength sz
  | setcontents contents alloc => bbSetcontents contents alloc
  | free => bbFree

/-- The byte string that is to be appended. -/
def elem (bb : Bytebuffer) : Call → Option Bytes
  | append elem => some [elem]
  | appendn e => some e
  | cat str => some str
  | catbuf s => some (s.get bb).contents
  | _ => none

/-- What `bbAppendn` (with `n > 0`), `bbCat` (a C string) and `bbCatbuf` (a buffer) are called with, when the
sum of the lengths is less than 2^31. -/
def Given (bb : Bytebuffer) : Call → Prop
  | append _ => bb.length.toNat + 1 + 2 < 2 ^ 31
  | appendn e => e ≠ [] ∧ bb.length.toNat + e.length + 2 < 2 ^ 31
  | cat str => (∀ c ∈ str, c ≠ 0) ∧ bb.length.toNat + str.length + 2 < 2 ^ 31
  | catbuf s => Holds (s.get bb) ∧ bb.length.toNat + (s.get bb).length.toNat + 2 < 2 ^ 31
  | null => bb.length.toNat + 2 < 2 ^ 31
  | _ => True

end Call

/-- The storage was supplied by `bbSetcontents`. -/
def Supplied (bb : Bytebuffer) : Prop := bb.nonextendible = true ∧ bb.content.isSome

/-- The loops end, and leave the old contents followed by `e`, with a null behind it within `alloc`. -/
def AppendsTo (s : State) (call : Call) (e : Bytes) : Prop :=
  ∃ k, ∀ turns, k ≤ turns → ∃ s', call.run turns s = .ok () s' ∧ s'.bb.contents = s.bb.contents ++ e ∧
    s'.bb.length.toNat = s.bb.length.toNat + e.length ∧ s'.bb.cells[s'.bb.length.toNat]? = some 0 ∧
    s'.bb.length.toNat < s'.bb.alloc.toNat

def Keeps (s : State) (call : Call) : Prop :=
  ∀ turns, call.run turns s ≠ .fault ∧ ∀ s', call.run turns s = .ok () s' → s'.freed = s.freed

theorem Keeps.of_exit {s : State} : (Out.exit : Out Unit) ≠ .fault ∧ ∀ s', Out.exit = .ok () s' → s'.freed = s.freed :=
  ⟨fun h => (by cases h), fun s' h => (by cases h)⟩

theorem Keeps.of_running {s : State} :
    (Out.running : Out Unit) ≠ .fault ∧ ∀ s', Out.running = .ok () s' → s'.freed = s.freed :=
  ⟨fun h => (by cases h), fun s' h => (by cases h)⟩

theorem Keeps.of_ok {s s₁ : State} (hf : s₁.freed = s.freed) :
    Out.ok () s₁ ≠ .fault ∧ ∀ s', Out.ok () s₁ = .ok () s' → s'.freed = s.freed :=
  ⟨fun h => (by cases h), fun s' h => (by cases h; exact hf)⟩

def AppendsAndKeeps (s : State) (call : Call) : Prop :=
  (∀ e, call.elem s.bb = some e → AppendsTo s call e) ∧ (Supplied s.bb → Keeps s call)

/-- The bytes of storage that a call makes room for. -/
def Call.need (bb : Bytebuffer) : Call → Nat
  | append _ => bb.length.toNat + 2
  | appendn e => bb.length.toNat + e.length + 2
  | cat str => bb.length.toNat + str.length + 3
  | catbuf s => bb.length.toNat + (s.get bb).length.toNat + 2
  | null => bb.length.toNat + 2
  | _ => 0

/-- Storage of the caller is long enough, and is neither extended by hand nor given to `bbFree`; and a buffer is
appended to itself only when there is room. -/
def Suits (bb : Bytebuffer) : Call → Prop
  | .setalloc sz => Supplied bb → sz ≠ 0
  | .free => ¬ Supplied bb
  | .catbuf .self =>
    (Supplied bb ∨ bb.length > 0) → Call.need bb (.catbuf .self) ≤ bb.alloc.toNat
  | call => Supplied bb → call.need bb ≤ bb.alloc.toNat

section Meets
variable {s : State} {call : Call} {need : Nat} {e : Bytes}

section
variable (hr : Runs (fun turns => call.run turns) s (Joined need s e))
include hr

theorem AppendsTo.of_runs : AppendsTo s call e := by
  obtain ⟨k, hk⟩ := hr.ends
  refine ⟨k, fun turns hle => ?_⟩
  obtain ⟨s', hok⟩ := hk turns hle
  have hj := hr.of_eq_ok hok
  exact ⟨s', hok, hj.contents, hj.length, by rw [hj.length]; exact hj.null, hj.null_lt⟩

theorem keeps_iff_of_runs (hc : s.bb.content.isSome) :
    Keeps s call ↔ need ≤ s.bb.alloc.toNat := by
  constructor
  · intro hk
    by_contra hlt
    obtain ⟨k, hends⟩ := hr.ends
    obtain ⟨s', hok⟩ := hends k le_rfl
    have hfreed := (hk k).2 s' hok
    have hmoved := (hr.of_eq_ok hok).moved (Nat.not_le.1 hlt) hc
    rw [hfreed] at hmoved
    exact absurd hmoved (lt_irrefl _)
  · intro hroom turns
    refine ⟨?_, fun s' hok => ((hr.of_eq_ok hok).kept hroom).2⟩
    rcases hr.safe turns with hrun | ⟨s', hok, -⟩
    · exact fun hf => by cases hrun.symm.trans hf
    · exact fun hf => by cases hok.symm.trans hf

theorem meets_of_runs
    (he : ∀ e', call.elem s.bb = some e' → e' = e) :
    AppendsAndKeeps s call ↔ (Supplied s.bb → need ≤ s.bb.alloc.toNat) := by
  constructor
  · exact fun h hs => (keeps_iff_of_runs hr hs.2).1 (h.2 hs)
  · refine fun h => ⟨fun e' he' => ?_, fun hs => (keeps_iff_of_runs hr hs.2).2 (h hs)⟩
    rw [he e' he']
    exact .of_runs hr

end

theorem setalloc_keeps (h : Inv s) (hs : Supplied s.bb) (sz : UInt32) : Keeps s (.setalloc sz) ↔ sz ≠ 0 := by
  constructor
  · rintro hk rfl
    by_cases hle : s.bb.length.toNat ≤ (doubled s.bb.alloc).toNat
    · have hfreed := (hk 0).2 _ (realloc_eq h hle)
      have hlen := freed_resize s (doubled s.bb.alloc)
      rw [hfreed, if_pos hs.2] at hlen
      omega
    · exact (hk 0).1 (realloc_fault h (Nat.not_le.1 hle))
  intro hne turns
  have hrun : Call.run turns (.setalloc sz) s = .ok () s ∨ Call.run turns (.setalloc sz) s = .exit := by
    simp only [Call.run, bbSetalloc, bind_buffer, if_neg hne, hs.1]
    split
    · exact .inl rfl
    · exact .inr rfl
  rcases hrun with hrun | hrun <;> rw [hrun]
  · exact Keeps.of_ok rfl
  · exact Keeps.of_exit

theorem setlength_keeps (h : Inv s) (hs : Supplied s.bb) (sz : UInt32) : Keeps s (.setlength sz) := by
  intro turns
  by_cases hlt : s.bb.length < sz
  · have hne : sz ≠ 0 := by
      rintro rfl
      exact absurd (UInt32.lt_iff_toNat_lt.1 hlt) (Nat.not_lt_zero _)
    have hrun : Call.run turns (.setlength sz) s =
        (bbSetalloc sz >>= fun _ => modify fun bb => { bb with length := sz }) s := by
      simp only [Call.run, bbSetlength, bind_buffer, if_pos hlt]
    rw [hrun]
    obtain ⟨hf, hok⟩ := (setalloc_keeps h hs sz).2 hne 0
    change bbSetalloc sz s ≠ .fault at hf
    change ∀ s', bbSetalloc sz s = .ok () s' → s'.freed = s.freed at hok
    cases hb : bbSetalloc sz s with
    | ok _ s' =>
      rw [bind_ok hb]
      exact Keeps.of_ok (hok s' hb)
    | exit => rw [bind_exit hb]; exact Keeps.of_exit
    | fault => exact absurd hb hf
    | running => rw [bind_running hb]; exact Keeps.of_running
  · have hrun : Call.run turns (.setlength sz) s = .ok () { s with bb := { s.bb with length := sz } } := by
      simp only [Call.run, bbSetlength, bind_buffer, if_neg hlt, modify_apply]
    rw [hrun]
    exact Keeps.of_ok rfl

/-- For every buffer and every call it can be given. -/
theorem appends_iff (h : Inv s) (hgiven : call.Given s.bb) : AppendsAndKeeps s call ↔ Suits s.bb call := by
  have halloc : s.bb.alloc.toNat < 2 ^ 32 := s.bb.alloc.toNat_lt
  have only {c : Call} (hc : c.elem s.bb = none) : AppendsAndKeeps s c ↔ (Supplied s.bb → Keeps s c) :=
    ⟨fun h => h.2, fun h => ⟨fun e he => (by rw [hc] at he; cases he), h⟩⟩
  cases call with
  | append elem =>
    change s.bb.length.toNat + 1 + 2 < 2 ^ 31 at hgiven
    exact meets_of_runs (bbAppend_runs h (.of_le halloc (by omega)) elem) (fun e' he' => by cases he'; rfl)
  | appendn e =>
    obtain ⟨hne, hlt⟩ := hgiven
    have hn : (UInt32.ofNat e.length).toNat = e.length := UInt32.toNat_ofNat_of_lt' (by show _ < 2 ^ 32; omega)
    have hn0 : UInt32.ofNat e.length ≠ 0 := fun h0 => by
      have hz := congrArg UInt32.toNat h0
      rw [hn] at hz
      exact hne (List.length_eq_zero_iff.1 hz)
    have hr := bbAppendn_mem_runs e h hn0 hn.le (.of_le halloc (by omega))
    rw [hn, List.take_length] at hr
    exact meets_of_runs hr (fun e' he' => by cases he'; rfl)
  | cat str =>
    obtain ⟨hstr, hlt⟩ := hgiven
    have hr := bbCat_runs (str ++ [0]) h (by simp)
      (.of_le halloc (by rw [strlen_append_null hstr]; omega))
    rw [strlen_append_null hstr, cstring_append_null hstr] at hr
    exact meets_of_runs hr (fun e' he' => by cases he'; rfl)
  | catbuf src =>
    obtain ⟨hsrc, hlt⟩ := hgiven
    cases src with
    | other src =>
      change s.bb.length.toNat + src.length.toNat + 2 < 2 ^ 31 at hlt
      exact meets_of_runs (bbCatbuf_other_runs h hsrc (.of_le halloc (by omega))) (fun e' he' => by cases he'; rfl)
    | self =>
      change s.bb.length.toNat + s.bb.length.toNat + 2 < 2 ^ 31 at hlt
      show _ ↔ (Supplied s.bb ∨ s.bb.length > 0 → s.bb.length.toNat + s.bb.length.toNat + 2 ≤ s.bb.alloc.toNat)
      by_cases hpos : s.bb.length > 0
      · by_cases hroom : s.bb.length.toNat + s.bb.length.toNat + 2 ≤ s.bb.alloc.toNat
        · have hr : Runs (fun turns => Call.run turns (.catbuf .self)) s _ := bbCatbuf_self_room h hpos hroom
          rw [meets_of_runs hr (fun e' he' => by cases he'; rfl)]
          exact ⟨fun _ _ => hroom, fun _ _ => hroom⟩
        · refine ⟨fun hm => ?_, fun hs => absurd (hs (.inr hpos)) hroom⟩
          obtain ⟨k, hk⟩ := hm.1 _ rfl
          obtain ⟨s', hok, -⟩ := hk k le_rfl
          change bbCatbuf k .self s = _ at hok
          rcases bbCatbuf_self_fault h hpos (Nat.not_le.1 hroom) (.of_le halloc (by omega)) k with hf | hf <;>
            cases hf.symm.trans hok
      · have h0 : s.bb.length.toNat = 0 := Nat.eq_zero_of_not_pos fun hp => hpos (UInt32.lt_iff_toNat_lt.2 hp)
        have hcont : s.bb.contents = [] := by rw [Bytebuffer.contents, h0, List.take_zero]
        have hr : Runs (fun turns => Call.run turns (.catbuf .self)) s (Joined (s.bb.length.toNat + 2) s []) := by
          refine (bbNull_runs h (.of_le halloc (by omega))).congr fun turns => ?_
          show bbCatbuf turns .self s = _
          rw [bbCatbuf_eq]
          exact if_neg hpos
        rw [meets_of_runs hr (fun e' he' => by cases he'; exact hcont), h0]
        exact ⟨fun hs hor => hs (hor.resolve_right hpos), fun hs hsup => hs (.inl hsup)⟩
  | null =>
    change s.bb.length.toNat + 2 < 2 ^ 31 at hgiven
    exact meets_of_runs (bbNull_runs h (.of_le halloc (by omega))) (fun e' he' => by cases he')
  | setalloc sz =>
    rw [only rfl]
    exact forall_congr' fun hs => setalloc_keeps h hs sz
  | setlength sz =>
    rw [only rfl]
    exact ⟨fun _ _ => Nat.zero_le _, fun _ hs => setlength_keeps h hs sz⟩
  | setcontents contents alloc =>
    rw [only rfl]
    refine ⟨fun _ _ => Nat.zero_le _, fun _ hs turns => ?_⟩
    have hrun : Call.run turns (.setcontents contents alloc) s =
        .ok () { s with bb := ⟨true, alloc, 0, some contents⟩, next := max s.next (contents.addr + 1) } := by
      simp only [Call.run, bbSetcontents, hs.1, if_true]
    rw [hrun]
    exact Keeps.of_ok rfl
  | free =>
    rw [only rfl]
    show (Supplied s.bb → Keeps s .free) ↔ ¬ Supplied s.bb
    refine ⟨fun hk hs => ?_, fun hn hs => absurd hs hn⟩
    obtain ⟨k, hk'⟩ := Option.isSome_iff_exists.1 hs.2
    have hfreed := (hk hs 0).2 _ rfl
    rw [State.freeContent, hk'] at hfreed
    exact absurd (congrArg List.length hfreed) (by simp)

end Meets

/-- A buffer with four bytes of its own, and what appending "ab" leaves of it. -/
theorem appends_iff_fits :
    AppendsAndKeeps ⟨⟨false, 4, 1, some ⟨0, [7, 0, 0, 0]⟩⟩, 1, []⟩ (.appendn [97, 98]) ↔
      Suits ⟨false, 4, 1, some ⟨0, [7, 0, 0, 0]⟩⟩ (.appendn [97, 98]) :=
  appends_iff ⟨by decide, by decide, fun k hk => by cases hk; decide⟩ ⟨by decide, by decide⟩

/-- One byte of storage of the caller: the first `bbAppend` frees it. -/
theorem append_frees_supplied :
    Inv ⟨⟨true, 1, 0, some ⟨0, [0]⟩⟩, 1, []⟩ ∧ (Call.append 97).Given ⟨true, 1, 0, some ⟨0, [0]⟩⟩ ∧
      ¬ AppendsAndKeeps ⟨⟨true, 1, 0, some ⟨0, [0]⟩⟩, 1, []⟩ (.append 97) := by
  refine ⟨⟨by decide, by decide, fun k hk => by cases hk; decide⟩, show 0 + 1 + 2 < 2 ^ 31 by decide, fun h => ?_⟩
  have hfreed := (h.2 ⟨rfl, rfl⟩ 1).2 _ rfl
  exact absurd hfreed (by decide)

end Node9.Buffers
