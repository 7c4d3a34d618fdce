import Node9.PoolRun
import Node9.Lib.Buf

/-!
# The statistics of the pools (`alloc.c`)

`poolread` writes a line for each pool into the buffer of the reader, and moves up what lies behind the offset. A line
that does not fit is cut off, one that is passed over too.
-/

namespace Node9.Pool
open Buf List
open Option hiding forall_mem_map

/-- `poolmax`: the largest block that could be had. -/
def rightmost (s : St) : Nat → Nat → Nat
  | 0, t => t
  | k + 1, t =>
    match s.tree.right t with
    | none => t
    | some t => rightmost s k t

def poolmax (s : St) : Nat :=
  let size := (s.maxsize + 2 ^ 64 - s.cursize) % 2 ^ 64
  let size :=
    match s.tree.root with
    | none => size
    | some t => max size (s.size (rightmost s s.fuel t))
  if BHDRSIZE ≤ size then size - BHDRSIZE else size

def ascii (cs : List Char) : Bytes := cs.map fun c => UInt8.ofNat c.toNat

/-- `%11` -/
def pad (u : Bytes) : Bytes := replicate (11 - u.length) 32 ++ u

/-- `%11lud` -/
def lud (n : Nat) : Bytes := pad (ascii (Nat.toDigits 10 (n % 2 ^ 64)))

/-- `%11d` -/
def d (n : Int32) : Bytes :=
  pad ((if n < 0 then [45] else []) ++ ascii (Nat.toDigits 10 n.toInt.natAbs))

def line (name : String) (s : St) : Bytes :=
  lud s.cursize ++ [32] ++ lud s.maxsize ++ [32] ++ lud s.hw ++ [32] ++ lud s.nalloc ++ [32] ++ lud s.nfree ++ [32] ++
    d (Int32.ofNat s.nbrk) ++ [32] ++ lud (poolmax s) ++ [32] ++ ascii name.toList ++ [10]

/-- `table.pool` -/
structure Table where
  main : St
  heap : St
  image : St

def Table.lines (t : Table) : List Bytes := [line "main" t.main, line "heap" t.heap, line "image" t.image]

def Table.text (t : Table) : Bytes := t.lines.flatten

/-- Into `len` bytes at `n`: what fits before the NUL, and its length. There is nothing if it is outside of the
buffer. -/
def snprint (va : Bytes) (n len : Int) (text : Bytes) : Option (Bytes × Int) :=
  if len ≤ 0 then some (va, -1)
  else
    let u := text.take (len.toNat - 1)
    if 0 ≤ n ∧ n.toNat + (u.length + 1) ≤ va.length then
      some (va.take n.toNat ++ (u ++ [0]) ++ va.drop (n.toNat + (u.length + 1)), u.length)
    else none

/-- `memmove(va, va+i, n)` -/
def moveUp (va : Bytes) (i n : Int) : Option Bytes :=
  if 0 ≤ i ∧ 0 ≤ n ∧ i.toNat + n.toNat ≤ va.length then
    some ((va.drop i.toNat).take n.toNat ++ va.drop n.toNat)
  else none

/-- The loop; `off` is `signed_off`. -/
def poolreadLoop : List Bytes → Bytes → Int → Int32 → Option (Bytes × Int)
  | [], va, n, _ => some (va, n)
  | l :: ls, va, n, off =>
    (snprint va n (va.length - n) l).bind fun r =>
      let n := n + r.2
      if 0 < off then
        let off := off - Int32.ofInt n
        if off < 0 then (moveUp r.1 (n + off.toInt) (-off.toInt)).bind fun va => poolreadLoop ls va (-off.toInt) off
        else poolreadLoop ls r.1 0 off
      else poolreadLoop ls r.1 n off

/-- `count` is the size of the buffer. -/
def poolread (t : Table) (va : Bytes) (offset : UInt64) : Option (Bytes × Int) :=
  poolreadLoop t.lines va 0 offset.toUInt32.toInt32

/-- The bytes from `offset` to `offset+count`, and nothing written outside of the buffer. -/
def Reads (t : Table) (va : Bytes) (offset : UInt64) : Prop :=
  ∃ (va' : Bytes) (n : Nat), poolread t va offset = some (va', (n : Int)) ∧ va'.length = va.length ∧
    va'.take n = (t.text.drop offset.toNat).take va.length ∧ n = ((t.text.drop offset.toNat).take va.length).length

/-- When what is read is right. All of the text has to be there, with a byte more, and every line that is begun before
the offset too. A buffer of no bytes is a matter of the sign only. From 2^31 on the offset is another, that may be in
the text. -/
def Table.Fits (t : Table) (c : Nat) (offset : UInt64) : Prop :=
  let off := offset.toUInt32.toInt32.toInt
  if c = 0 then 0 < off ∧ off + t.lines.length < 2 ^ 31
  else if offset.toNat < 2 ^ 31 then
    t.text.length ≤ offset.toNat ∨ (t.text.length < offset.toNat + c ∧
      ∀ pre l post, t.lines = pre ++ l :: post → pre.flatten.length < offset.toNat → l.length < c)
  else (t.lines.map fun l => min (c - 1) l.length).sum ≤ off.toNat

variable {t : Table} {va va' u l : Bytes} {ls : List Bytes} {off c n : Nat}

theorem length_ascii (cs : List Char) : (ascii cs).length = cs.length := length_map _

theorem length_pad (u : Bytes) : (pad u).length = max 11 u.length := by
  rw [pad, length_append, length_replicate]
  omega

theorem length_lud (n : Nat) : (lud n).length ≤ 20 := by
  rw [lud, length_pad, length_ascii]
  have hdigits : (Nat.toDigits 10 (n % 2 ^ 64)).length ≤ 20 :=
    (Nat.length_toDigits_le_iff (by decide) (by decide)).2 (lt_trans (Nat.mod_lt n (by decide)) (by decide))
  omega

theorem length_d (n : Int32) : (d n).length ≤ 20 := by
  have hle := n.le_toInt
  have hlt := n.toInt_lt
  have hdigits : (Nat.toDigits 10 n.toInt.natAbs).length ≤ 10 :=
    (Nat.length_toDigits_le_iff (by decide) (by decide)).2 (by omega)
  rw [d, length_pad, length_append, length_ascii]
  split
  · rw [length_singleton]
    omega
  · rw [length_nil]
    omega

theorem length_line (name : String) (s : St) :
    1 ≤ (line name s).length ∧ (line name s).length ≤ 148 + name.toList.length := by
  have h₁ := length_lud s.cursize
  have h₂ := length_lud s.maxsize
  have h₃ := length_lud s.hw
  have h₄ := length_lud s.nalloc
  have h₅ := length_lud s.nfree
  have h₆ := length_d (Int32.ofNat s.nbrk)
  have h₇ := length_lud (poolmax s)
  simp only [line, length_append, length_singleton, length_ascii]
  omega

theorem length_text (t : Table) : 0 < t.text.length ∧ t.text.length < 2 ^ 31 := by
  have hmain := length_line "main" t.main
  have hheap := length_line "heap" t.heap
  have himage := length_line "image" t.image
  have h₁ : "main".toList.length = 4 := rfl
  have h₂ : "heap".toList.length = 4 := rfl
  have h₃ : "image".toList.length = 5 := rfl
  simp only [Table.text, Table.lines, flatten_cons, flatten_nil, length_append, length_nil]
  omega

/-- What is given from `off` on into `c` bytes. A line before that gives way by as much as was written of it. -/
def got (c : Nat) : Nat → List Bytes → Bytes
  | _, [] => []
  | off, l :: ls =>
    if off = 0 then (l ++ ls.flatten).take (c - 1)
    else if (l.take (c - 1)).length ≤ off then got c (off - (l.take (c - 1)).length) ls
    else ((l.take (c - 1)).drop off ++ ls.flatten).take (c - 1)

theorem take_take_append (k : Nat) (a b : Bytes) : (a.take k ++ b).take k = (a ++ b).take k := by
  by_cases h : a.length ≤ k
  · rw [take_of_length_le h]
  · have hlen : (a.take k).length = k := length_take_of_le (not_le.1 h).le
    rw [take_left' hlen, take_append_of_le_length (not_le.1 h).le]

theorem snprint_spec (hn : n < va.length) (l : Bytes) :
    ∃ (va' : Bytes) (m : Nat), snprint va n (va.length - n) l = some (va', (m : Int)) ∧ va'.length = va.length ∧
      va'.take (n + m) = (va.take n ++ l).take (va.length - 1) ∧
      n + m = ((va.take n ++ l).take (va.length - 1)).length ∧ m = (l.take (va.length - n - 1)).length := by
  have hlen : ¬ ((va.length : Int) - n ≤ 0) := by omega
  have hnat : ((va.length : Int) - n).toNat - 1 = va.length - n - 1 := by omega
  have htn : (va.take n).length = n := length_take_of_le hn.le
  have hm : (l.take (va.length - n - 1)).length ≤ va.length - n - 1 := length_take_le _ _
  have htake : (va.take n ++ l).take (va.length - 1) = va.take n ++ l.take (va.length - n - 1) := by
    rw [take_append, htn, take_of_length_le (by omega), Nat.sub_right_comm]
  refine ⟨va.take n ++ (l.take (va.length - n - 1) ++ [0]) ++ va.drop (n + ((l.take (va.length - n - 1)).length + 1)),
    (l.take (va.length - n - 1)).length, ?_, ?_, ?_, ?_, rfl⟩
  · rw [snprint, if_neg hlen, hnat, Int.toNat_natCast]
    exact if_pos ⟨Int.natCast_nonneg n, by omega⟩
  · rw [length_append, length_append, length_append, length_drop, htn, length_singleton]
    omega
  · rw [htake, append_assoc, append_assoc, ← append_assoc]
    exact take_left' (by rw [length_append, htn])
  · rw [htake, length_append, htn]

theorem append_spec {off : Int32} (hoff : ¬ 0 < off) (hn : n < va.length) :
    ∃ (va' : Bytes) (m : Nat), poolreadLoop ls va n off = some (va', (m : Int)) ∧ va'.length = va.length ∧
      va'.take m = (va.take n ++ ls.flatten).take (va.length - 1) ∧
      m = ((va.take n ++ ls.flatten).take (va.length - 1)).length := by
  induction ls generalizing va n with
  | nil =>
    have htake : (va.take n ++ [].flatten).take (va.length - 1) = va.take n := by
      rw [flatten_nil, append_nil, take_of_length_le]
      rw [length_take]
      omega
    exact ⟨va, n, rfl, rfl, htake.symm, by rw [htake, length_take_of_le hn.le]⟩
  | cons l ls ih =>
    obtain ⟨va₁, m, hprint, hlen₁, htake₁, hm, -⟩ := snprint_spec hn l
    have hlt : n + m < va₁.length := by
      rw [hlen₁, hm]
      exact lt_of_le_of_lt (length_take_le _ _) (by omega)
    obtain ⟨va', m', hloop, hlen', htake', hm'⟩ := ih hlt
    rw [htake₁, hlen₁, take_take_append, append_assoc] at htake' hm'
    refine ⟨va', m', ?_, hlen'.trans hlen₁, htake', hm'⟩
    rw [poolreadLoop, hprint, bind_some]
    simp only [if_neg hoff]
    exact hloop

theorem moveUp_spec {i k : Nat} (h : i + k ≤ va.length) : ∃ va' : Bytes, moveUp va i k = some va' ∧
    va'.length = va.length ∧ va'.take k = (va.take (i + k)).drop i := by
  have hlen : ((va.drop i).take k).length = k := by
    rw [length_take_of_le]
    rw [length_drop]
    omega
  refine ⟨(va.drop i).take k ++ va.drop k, ?_, ?_, ?_⟩
  · rw [moveUp, Int.toNat_natCast, Int.toNat_natCast]
    exact if_pos ⟨Int.natCast_nonneg i, Int.natCast_nonneg k, h⟩
  · rw [length_append, hlen, length_drop]
    omega
  · rw [take_left' hlen, take_drop, add_comm]

theorem toInt_pos {off : Int32} : 0 < off ↔ 0 < off.toInt := Int32.lt_iff_toInt_lt

theorem toInt_neg {off : Int32} : off < 0 ↔ off.toInt < 0 := Int32.lt_iff_toInt_lt

theorem toInt_sub {off : Int32} {m : Int} (hm : 0 ≤ m) (hle : m < 2 ^ 31) (hoff : 0 < off.toInt) :
    (off - Int32.ofInt m).toInt = off.toInt - m := by
  have hlt := off.toInt_lt
  have hof : (Int32.ofInt m).toInt = m := Int32.toInt_ofInt_of_le (by omega) hle
  rw [Int32.toInt_sub, hof, Int.bmod_eq_of_le (by omega) (by omega)]

theorem skip_spec {off : Int32} (hva : 0 < va.length) (hva' : va.length < 2 ^ 31) :
    ∃ (va' : Bytes) (m : Nat), poolreadLoop ls va 0 off = some (va', (m : Int)) ∧ va'.length = va.length ∧
      va'.take m = got va.length off.toInt.toNat ls ∧ m = (got va.length off.toInt.toNat ls).length := by
  induction ls generalizing va off with
  | nil => exact ⟨va, 0, rfl, rfl, rfl, rfl⟩
  | cons l ls ih =>
    by_cases hoff : 0 < off
    · have hpos := toInt_pos.1 hoff
      obtain ⟨va₁, m, hprint, hlen₁, htake₁, -, hm⟩ := snprint_spec hva l
      rw [zero_add, take_zero, nil_append] at htake₁
      rw [Nat.sub_zero] at hm
      rw [Nat.cast_zero] at hprint
      have hmle : m ≤ va.length - 1 := hm ▸ length_take_le _ _
      have hsub := toInt_sub (m := m) (Int.natCast_nonneg m) (by omega) hpos
      rw [got, if_neg (by omega), ← hm]
      rw [poolreadLoop, hprint, bind_some]
      simp only [if_pos hoff, toInt_neg, Int.zero_add, hsub]
      by_cases hle : m ≤ off.toInt.toNat
      · obtain ⟨va', m', hloop, hlen', htake', hm'⟩ := @ih va₁ (off - Int32.ofInt m) (by omega) (by omega)
        have hnat : (off.toInt - m).toNat = off.toInt.toNat - m := by omega
        rw [hsub, hlen₁, hnat] at htake' hm'
        rw [if_pos hle, if_neg (by omega)]
        exact ⟨va', m', hloop, hlen'.trans hlen₁, htake', hm'⟩
      -- the line goes over the offset
      obtain ⟨k, hk⟩ : ∃ k : Nat, m = off.toInt.toNat + k := ⟨m - off.toInt.toNat, by omega⟩
      have hfrom : (m : Int) + (off.toInt - m) = (off.toInt.toNat : Nat) := by omega
      have hcount : -(off.toInt - m) = (k : Nat) := by omega
      obtain ⟨va₂, hmove, hlen₂, htake₂⟩ := @moveUp_spec va₁ off.toInt.toNat k (by omega)
      have hnot : ¬ 0 < off - Int32.ofInt m := by
        rw [toInt_pos, hsub]
        omega
      obtain ⟨va', m', hloop, hlen', htake', hm'⟩ := @append_spec va₂ ls k _ hnot (by omega)
      rw [htake₂, ← hk, htake₁, hlen₂, hlen₁] at htake' hm'
      rw [if_neg hle, if_pos (by omega), hfrom, hcount, hmove, bind_some]
      exact ⟨va', m', hloop, by omega, htake', hm'⟩
    · have hzero : off.toInt.toNat = 0 := by
        rw [toInt_pos] at hoff
        omega
      rw [hzero, got, if_pos rfl, ← flatten_cons]
      exact append_spec hoff hva

theorem length_got_le (c off : Nat) (ls : List Bytes) : (got c off ls).length ≤ ls.flatten.length - off := by
  induction ls generalizing off with
  | nil => exact zero_le
  | cons l ls ih =>
    have hl : (l.take (c - 1)).length ≤ l.length := length_take_le' _ _
    rw [got, flatten_cons, length_append]
    split
    · exact (length_take_le' _ _).trans (by rw [length_append]; omega)
    · split
      · exact (ih _).trans (by omega)
      · refine (length_take_le' _ _).trans ?_
        rw [length_append, length_drop]
        omega

theorem length_got_le_pred (c off : Nat) (ls : List Bytes) : (got c off ls).length ≤ c - 1 := by
  induction ls generalizing off with
  | nil => exact zero_le
  | cons l ls ih =>
    rw [got]
    split
    · exact length_take_le _ _
    · split
      · exact ih _
      · exact length_take_le _ _

theorem got_eq_nil (c off : Nat) (ls : List Bytes) :
    got c off ls = [] ↔ (ls.map fun l => min (c - 1) l.length).sum ≤ off := by
  induction ls generalizing off with
  | nil => exact ⟨fun _ => zero_le, fun _ => rfl⟩
  | cons l ls ih =>
    rw [got, map_cons, sum_cons, length_take]
    split
    next hoff =>
      have hsum : (ls.map fun l => min (c - 1) l.length).sum = 0 ↔ c - 1 = 0 ∨ ls.flatten = [] := by
        rw [sum_eq_zero_iff, flatten_eq_nil_iff, forall_mem_map]
        constructor
        · intro h
          by_cases hc : c - 1 = 0
          · exact Or.inl hc
          · exact Or.inr fun u hu => length_eq_zero_iff.1 (by have := h u hu; omega)
        · rintro (hc | hnil) u hu
          · rw [hc, Nat.zero_min]
          · rw [hnil u hu, length_nil, Nat.min_zero]
      rw [hoff, Nat.le_zero, Nat.add_eq_zero_iff, hsum, take_eq_nil_iff, append_eq_nil_iff,
        Nat.min_eq_zero_iff,
        length_eq_zero_iff]
      tauto
    next hoff =>
      split
      next hle =>
        rw [ih]
        omega
      next hgt =>
        refine iff_of_false (fun hnil => ?_) (by omega)
        rw [take_eq_nil_iff, append_eq_nil_iff, drop_eq_nil_iff, length_take] at hnil
        omega

theorem got_of_short (h : ∀ pre l post, ls = pre ++ l :: post → pre.flatten.length < off → l.length < c) :
    got c off ls = (ls.flatten.drop off).take (c - 1) := by
  induction ls generalizing off with
  | nil => rw [got, flatten_nil, drop_nil, take_nil]
  | cons l ls ih =>
    rw [got, flatten_cons]
    split
    next hoff => rw [hoff, drop_zero]
    next hoff =>
      have hl : l.length < c := h [] l ls rfl (Nat.pos_of_ne_zero hoff)
      rw [take_of_length_le (by omega)]
      split
      next hle =>
        rw [drop_append, drop_of_length_le hle, nil_append]
        refine ih fun pre u post heq hlt => h (l :: pre) u post (by rw [heq, cons_append]) ?_
        rw [flatten_cons, length_append]
        omega
      next hgt => rw [drop_append_of_le_length (not_le.1 hgt).le]

theorem length_got_lt {pre post : List Bytes} (hls : ls = pre ++ l :: post) (hpre : pre.flatten.length < off)
    (hc : 0 < c)
    (hl : c ≤ l.length) (hoff : off < ls.flatten.length) : (got c off ls).length < ls.flatten.length - off := by
  induction pre generalizing ls off with
  | nil =>
    have hw : (l.take (c - 1)).length = c - 1 := length_take_of_le (by omega)
    rw [nil_append] at hls
    rw [flatten_nil, length_nil] at hpre
    rw [hls, flatten_cons, length_append] at hoff
    rw [hls, got, if_neg hpre.ne', hw, flatten_cons, length_append]
    split
    · have hle := length_got_le c (off - (c - 1)) post
      omega
    · refine lt_of_le_of_lt (length_take_le' _ _) ?_
      rw [length_append, length_drop, hw]
      omega
  | cons u pre ih =>
    have hw : (u.take (c - 1)).length ≤ u.length := length_take_le' _ _
    rw [cons_append] at hls
    rw [flatten_cons, length_append] at hpre
    rw [hls, flatten_cons, length_append] at hoff
    rw [hls, got, if_neg (by omega), if_pos (by omega), flatten_cons, length_append]
    by_cases hlt : off - (u.take (c - 1)).length < (pre ++ l :: post).flatten.length
    · have hrest := ih rfl (by omega) hlt
      omega
    · have hle := length_got_le c (off - (u.take (c - 1)).length) (pre ++ l :: post)
      omega

/-! ### A buffer of no bytes -/

theorem snprint_nil (l : Bytes) : snprint [] 0 (([] : Bytes).length - 0) l = some ([], -1) := rfl

theorem snprint_before (l : Bytes) : snprint [] (-1) (([] : Bytes).length - (-1)) l = none := by
  rw [snprint, if_neg (by decide)]
  exact if_neg fun h => absurd h.1 (by decide)

theorem loop_nil {off : Int32} (hoff : 0 < off.toInt) :
    poolreadLoop ls [] 0 off = if off.toInt + ls.length < 2 ^ 31 then some ([], 0) else none := by
  have hlt := off.toInt_lt
  induction ls generalizing off with
  | nil => exact (if_pos (by simpa using hlt)).symm
  | cons l ls ih =>
    rw [poolreadLoop, snprint_nil, bind_some]
    simp only [if_pos (toInt_pos.2 hoff), Int.zero_add, length_cons]
    by_cases hmax : off.toInt + 1 < 2 ^ 31
    · have hadd : (off - Int32.ofInt (-1)).toInt = off.toInt + 1 := by
        have hof : (Int32.ofInt (-1)).toInt = -1 := rfl
        rw [Int32.toInt_sub, hof, Int.bmod_eq_of_le (by omega) (by omega)]
        omega
      rw [if_neg (by rw [toInt_neg, hadd]; omega), ih (by omega) (off - Int32.ofInt (-1)).toInt_lt, hadd]
      refine if_congr ?_ rfl rfl
      rw [Nat.cast_succ]
      omega
    have hadd : (off - Int32.ofInt (-1)).toInt < 0 := by
      have hof : (Int32.ofInt (-1)).toInt = -1 := rfl
      have hoff' : off.toInt = 2 ^ 31 - 1 := by omega
      rw [Int32.toInt_sub, hof, hoff']
      decide
    have hmove : moveUp [] (-1 + (off - Int32.ofInt (-1)).toInt) (-(off - Int32.ofInt (-1)).toInt) = none :=
      if_neg fun h => by omega
    rw [if_pos (toInt_neg.2 hadd), hmove, bind_none]
    refine (if_neg ?_).symm
    rw [Nat.cast_succ]
    omega

theorem reads_iff (t : Table) (hva : 0 < va.length) (hva' : va.length < 2 ^ 31) (offset : UInt64) :
    Reads t va offset ↔
      got va.length offset.toUInt32.toInt32.toInt.toNat t.lines = (t.text.drop offset.toNat).take va.length := by
  obtain ⟨va₁, m, hloop, hlen, htake, hm⟩ := @skip_spec va t.lines offset.toUInt32.toInt32 hva hva'
  constructor
  · rintro ⟨va₂, n, hread, -, htake', -⟩
    obtain ⟨hva₁, hn⟩ := Prod.mk.inj (some.inj (hloop.symm.trans hread))
    rw [← htake', ← htake, hva₁, Int.natCast_inj.1 hn]
  · intro hgot
    exact ⟨va₁, m, hloop, hlen, htake.trans hgot, hm.trans (congrArg length hgot)⟩

theorem toInt_offset {offset : UInt64} (h : offset.toNat < 2 ^ 31) :
    offset.toUInt32.toInt32.toInt.toNat = offset.toNat := by
  have hnat : offset.toUInt32.toNat = offset.toNat := by
    rw [UInt64.toNat_toUInt32]
    exact Nat.mod_eq_of_lt (by omega)
  have hint : offset.toUInt32.toInt32.toInt = (offset.toUInt32.toNat : Int).bmod (2 ^ 32) :=
    BitVec.toInt_eq_toNat_bmod offset.toUInt32.toBitVec
  rw [hint, hnat, Int.bmod_eq_of_le (by omega) (by omega), Int.toNat_natCast]

theorem reads_nil (t : Table) (offset : UInt64) : Reads t [] offset ↔
    0 < offset.toUInt32.toInt32.toInt ∧ offset.toUInt32.toInt32.toInt + t.lines.length < 2 ^ 31 := by
  by_cases hoff : 0 < offset.toUInt32.toInt32.toInt
  · have hloop := @loop_nil t.lines _ hoff
    by_cases hmax : offset.toUInt32.toInt32.toInt + t.lines.length < 2 ^ 31
    · rw [if_pos hmax] at hloop
      refine iff_of_true ⟨[], 0, hloop, rfl, ?_, ?_⟩ ⟨hoff, hmax⟩
      · rw [length_nil, take_zero, take_zero]
      · rw [length_nil, take_zero, length_nil]
    · rw [if_neg hmax] at hloop
      refine iff_of_false ?_ fun h => hmax h.2
      rintro ⟨va', n, hread, -⟩
      cases hloop.symm.trans hread
  · refine iff_of_false ?_ fun h => hoff h.1
    rintro ⟨va', n, hread, -⟩
    have hnot := mt toInt_pos.1 hoff
    rw [poolread, Table.lines, poolreadLoop, snprint_nil, bind_some, if_neg hnot, Int.zero_add, poolreadLoop,
      snprint_before, bind_none] at hread
    cases hread

/-- A read gives the bytes of the text at its offset if and only if they fit. -/
theorem poolread_iff (t : Table) (va : Bytes) (offset : UInt64) (hva : va.length < 2 ^ 31) :
    Reads t va offset ↔ t.Fits va.length offset := by
  by_cases hzero : va.length = 0
  · rw [length_eq_zero_iff.1 hzero, reads_nil, Table.Fits, length_nil, if_pos rfl]
  rw [reads_iff t (Nat.pos_of_ne_zero hzero) hva, Table.Fits, if_neg hzero]
  by_cases hoff : offset.toNat < 2 ^ 31
  · rw [toInt_offset hoff, if_pos hoff]
    constructor
    · intro hgot
      have hlen := congrArg length hgot
      rw [length_take, length_drop] at hlen
      by_cases hend : t.text.length ≤ offset.toNat
      · exact Or.inl hend
      have hcut := length_got_le_pred va.length offset.toNat t.lines
      refine Or.inr ⟨by omega, fun pre l post hlines hpre => ?_⟩
      by_contra hlong
      have hless : _ < t.text.length - offset.toNat :=
        length_got_lt hlines hpre (Nat.pos_of_ne_zero hzero) (not_lt.1 hlong) (not_le.1 hend)
      omega
    · rintro (hend | ⟨hfit, hshort⟩)
      · have hle : _ ≤ t.text.length - offset.toNat := length_got_le va.length offset.toNat t.lines
        rw [drop_of_length_le hend, take_nil]
        exact length_eq_zero_iff.1 (by omega)
      · rw [got_of_short hshort, ← Table.text, take_of_length_le, take_of_length_le]
        · rw [length_drop]
          omega
        · rw [length_drop]
          omega
  · have htext := (length_text t).2
    rw [if_neg hoff, drop_of_length_le (by omega), take_nil, got_eq_nil]

theorem poolread_iff_large : Reads ⟨start, start, start⟩ (replicate 1000 0) 300 ↔
    (Table.mk start start start).Fits (replicate 1000 (0 : UInt8)).length 300 :=
  poolread_iff _ _ _ (by rw [length_replicate]; decide)

/-- Nothing is given into a buffer of one byte, at the beginning of the text. -/
theorem not_poolread : ¬ ∀ (t : Table) (va : Bytes) (offset : UInt64), va.length < 2 ^ 31 → Reads t va offset := by
  intro h
  have hgot := (@reads_iff [0] ⟨start, start, start⟩ (by decide) (by decide) 0).1 (h _ [0] 0 (by decide))
  have hlen := congrArg length hgot
  have hcut := length_got_le_pred 1 (0 : UInt64).toUInt32.toInt32.toInt.toNat (Table.mk start start start).lines
  have htext := (length_text ⟨start, start, start⟩).1
  rw [length_take, length_drop, UInt64.toNat_zero, Nat.sub_zero] at hlen
  have hone : ([0] : Bytes).length = 1 := rfl
  rw [hone] at hlen
  omega

end Node9.Pool
