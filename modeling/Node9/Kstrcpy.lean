import Node9.JsonUnicode

/-!
# Bounded string copy (`chan.c`)

`kstrcpy` copies a string into a buffer of `ns` bytes, with `...` at its end if it is too long. The length of the string
is kept in an `int`.
-/

namespace Node9.Kstrcpy
open Buf List

/-- There is nothing if it reads or writes outside. A negative size is a huge one. -/
def memmove (s t : Bytes) (n : Int) : Option Bytes :=
  if 0 ≤ n ∧ n.toNat ≤ t.length ∧ n.toNat ≤ s.length then some (t.take n.toNat ++ s.drop n.toNat) else none

/-- It writes all `n` bytes. -/
def strncpy (s t : Bytes) (n : Int) : Option Bytes :=
  if 0 ≤ n ∧ n.toNat ≤ s.length then some ((t ++ replicate n.toNat 0).take n.toNat ++ s.drop n.toNat) else none

def dots : Bytes := [46, 46, 46]

/-- `(c&0xC0) == 0x80` -/
def Continues (c : UInt8) : Prop := c &&& 0xC0 = 0x80

instance : DecidablePred Continues := fun _ => inferInstanceAs (Decidable (_ = _))

/-- The loop that looks for the first byte of a UTF-8 sequence. -/
def skipContinuation (s : Bytes) : Nat → Nat
  | 0 => 0
  | n + 1 => if Continues (s.getD n 0) then skipContinuation s n else n

/-- `t` is without its NUL. -/
def kstrcpy (s t : Bytes) (ns : Int32) : Option Bytes :=
  let nt := Int32.ofNat t.length
  if nt + 1 ≤ ns then memmove s (t ++ [0]) (nt + 1).toInt
  else if ns < 4 then strncpy s t ns.toInt
  else
    (memmove s (t ++ [0]) (ns - 4).toInt).map fun s =>
      let n := (ns - 4).toInt.toNat
      let s := s.set n 0
      let n := skipContinuation s n
      s.take n ++ (dots ++ [0]) ++ s.drop (n + 4)

def utf8 (cs : List Char) : Bytes := cs.flatMap String.utf8EncodeChar

/-- What `s` has become: a string `u` that is the whole text, or as many characters of it as one likes and as much of
`...` as there is room for. -/
structure Copied (s : Bytes) (cs : List Char) (n : Nat) (s' u : Bytes) : Prop where
  length : s'.length = s.length
  inside : s'.drop n = s.drop n
  string : u ++ [0] <+: s'
  no_nul : 0 ∉ u
  bound : u.length < n
  whole : (utf8 cs).length < n → u = utf8 cs
  cut : n ≤ (utf8 cs).length → ∃ k, u = utf8 (cs.take k) ++ dots.take (n - 1)

variable {s s' t u : Bytes} {cs : List Char} {ns : Int32} {n k : Nat}

/-! ### Character boundaries -/

theorem continues_of_range : ∀ y : UInt8, 0x80 ≤ y ∧ y ≤ 0xBF → Continues y := by
  unfold Continues
  decide +kernel

theorem continues_of_tail {c : Char} {x : UInt8} {t : Bytes} (h : String.utf8EncodeChar c = x :: t) :
    ∀ y ∈ t, Continues y := by
  rcases Json.utf8EncodeChar_cases c with ⟨hc, -⟩ | ⟨x', t', hc, -, ht, -⟩
  · rw [h] at hc
    obtain ⟨-, rfl⟩ := cons.inj hc
    exact fun y hy => absurd hy not_mem_nil
  · rw [h] at hc
    obtain ⟨-, rfl⟩ := cons.inj hc
    exact fun y hy => continues_of_range y (ht y hy)

theorem boundary (hk : k < (utf8 cs).length) (hc : ¬ Continues ((utf8 cs).getD k 0)) :
    ∃ j, (utf8 cs).take k = utf8 (cs.take j) := by
  induction cs generalizing k with
  | nil => exact absurd hk (Nat.not_lt_zero k)
  | cons c cs ih =>
    have hutf : utf8 (c :: cs) = String.utf8EncodeChar c ++ utf8 cs := rfl
    rw [hutf] at hk hc ⊢
    by_cases hlt : k < (String.utf8EncodeChar c).length
    · cases k with
      | zero => exact ⟨0, rfl⟩
      | succ k =>
        obtain ⟨x, t, hx⟩ := exists_cons_of_ne_nil (String.utf8EncodeChar_ne_nil (c := c))
        rw [hx] at hlt hc
        have hkt : k < t.length := Nat.lt_of_succ_lt_succ hlt
        rw [cons_append, getD_cons_succ, getD_append _ _ _ _ hkt] at hc
        refine absurd (continues_of_tail hx _ ?_) hc
        rw [getD_eq_getElem _ _ hkt]
        exact getElem_mem hkt
    · have hle := not_lt.1 hlt
      rw [length_append] at hk
      rw [getD_append_right _ _ _ _ hle] at hc
      obtain ⟨j, hj⟩ := ih (by omega) hc
      refine ⟨j + 1, ?_⟩
      rw [take_append, take_of_length_le hle, hj]
      rfl

theorem skipContinuation_spec (s : Bytes) (n : Nat) : skipContinuation s n ≤ n ∧
    (0 < n → skipContinuation s n < n) ∧
    (skipContinuation s n = 0 ∨ ¬ Continues (s.getD (skipContinuation s n) 0)) := by
  induction n with
  | zero => exact ⟨le_rfl, fun h => absurd h (lt_irrefl 0), .inl rfl⟩
  | succ n ih =>
    rw [skipContinuation]
    by_cases hc : Continues (s.getD n 0)
    · rw [if_pos hc]
      exact ⟨Nat.le_succ_of_le ih.1, fun _ => Nat.lt_succ_of_le ih.1, ih.2.2⟩
    · rw [if_neg hc]
      exact ⟨Nat.le_succ n, fun _ => Nat.lt_succ_self n, .inr hc⟩

theorem int_succ (h : t.length + 1 < 2 ^ 31) : (Int32.ofNat t.length + 1).toInt = t.length + 1 := by
  have hone : (1 : Int32).toInt = 1 := rfl
  rw [Int32.toInt_add, Int32.toInt_ofNat_of_lt (by omega), hone, Int.bmod_eq_of_le (by omega) (by omega)]

theorem int_sub_four (h : 4 ≤ ns) : (ns - 4).toInt = ns.toInt - 4 := by
  have hle := Int32.le_iff_toInt_le.1 h
  have hlt := ns.toInt_lt
  have hfour : (4 : Int32).toInt = 4 := rfl
  rw [hfour] at hle
  rw [Int32.toInt_sub, hfour, Int.bmod_eq_of_le (by omega) (by omega)]

theorem copied_whole (hnul : 0 ∉ utf8 cs) (hs : ns.toInt.toNat ≤ s.length) (h : (utf8 cs).length < ns.toInt.toNat) :
    ∃ s' u, kstrcpy s (utf8 cs) ns = some s' ∧ Copied s cs ns.toInt.toNat s' u := by
  have hlt := ns.toInt_lt
  have hint : (Int32.ofNat (utf8 cs).length + 1).toInt = (utf8 cs).length + 1 := int_succ (by omega)
  have hle : Int32.ofNat (utf8 cs).length + 1 ≤ ns := by
    rw [Int32.le_iff_toInt_le, hint]
    omega
  have hlen : (utf8 cs ++ [0]).length = (utf8 cs).length + 1 := length_append
  have hnat : ((utf8 cs).length + 1 : Int).toNat = (utf8 cs ++ [0]).length := by rw [hlen]; rfl
  refine ⟨utf8 cs ++ [0] ++ s.drop (utf8 cs ++ [0]).length, utf8 cs, ?_, ?_, ?_, ?_, hnul, h, fun _ => rfl,
    fun h' => ?_⟩
  · simp only [kstrcpy, if_pos hle, memmove, hint, hnat]
    rw [if_pos ⟨by omega, le_rfl, by omega⟩, take_length]
  · rw [length_append, length_drop]
    omega
  · rw [drop_append, drop_eq_nil_of_le (by omega), nil_append, drop_drop]
    congr 1
    omega
  · exact prefix_append _ _
  · exact absurd h (Nat.not_lt.2 h')

theorem not_copied (h : 0 ∉ s'.take n) : ¬ Copied s cs n s' u := by
  intro hc
  obtain ⟨v, hv⟩ := hc.string
  refine h ?_
  rw [← hv, append_assoc, take_append, mem_append]
  obtain ⟨m, hm⟩ : ∃ m, n - u.length = m + 1 := ⟨n - u.length - 1, by have := hc.bound; omega⟩
  rw [hm]
  exact .inr mem_cons_self

theorem memmove_eq_some {m : Int} (h : memmove s t m = some s') :
    ∃ k : Nat, m = k ∧ k ≤ t.length ∧ k ≤ s.length ∧ s' = t.take k ++ s.drop k := by
  unfold memmove at h
  split at h
  · next hm =>
    exact ⟨m.toNat, (Int.toNat_of_nonneg hm.1).symm, hm.2.1, hm.2.2, (Option.some.inj h).symm⟩
  · cases h

theorem copied_cut (hnul : 0 ∉ utf8 cs) (hs : ns.toInt.toNat ≤ s.length) (h : ns.toInt.toNat ≤ (utf8 cs).length)
    (hfour : 4 ≤ ns) (hlt : ns < Int32.ofNat (utf8 cs).length + 1) :
    ∃ s' u, kstrcpy s (utf8 cs) ns = some s' ∧ Copied s cs ns.toInt.toNat s' u := by
  have hint := int_sub_four hfour
  have hle := Int32.le_iff_toInt_le.1 hfour
  have hfour' : (4 : Int32).toInt = 4 := rfl
  rw [hfour'] at hle
  obtain ⟨m, hm⟩ : ∃ m : Nat, ns.toInt = m + 4 := ⟨(ns.toInt - 4).toNat, by omega⟩
  have hsub : (ns - 4).toInt = m := by omega
  have hn : ns.toInt.toNat = m + 4 := by omega
  rw [hn] at hs h ⊢
  have hmove : memmove s (utf8 cs ++ [0]) (m : Int) = some ((utf8 cs).take m ++ s.drop m) := by
    rw [memmove, Int.toNat_natCast, if_pos ⟨by omega, by rw [length_append]; omega, by omega⟩,
      take_append_of_le_length (by omega)]
  obtain ⟨hkle, hklt, hkc⟩ := skipContinuation_spec (((utf8 cs).take m ++ s.drop m).set m 0) m
  generalize hk : skipContinuation (((utf8 cs).take m ++ s.drop m).set m 0) m = k at hkle hklt hkc
  have hlen : (((utf8 cs).take m ++ s.drop m).set m 0).length = s.length := by
    rw [length_set, length_append, length_take_of_le (by omega), length_drop]
    omega
  have htake : (((utf8 cs).take m ++ s.drop m).set m 0).take k = (utf8 cs).take k := by
    rw [take_set, set_eq_of_length_le (by rw [length_take]; omega), take_append_of_le_length
      (by rw [length_take]; omega), take_take, min_eq_left hkle]
  have hbound : ∃ j, (utf8 cs).take k = utf8 (cs.take j) := by
    rcases hkc with rfl | hkc
    · exact ⟨0, rfl⟩
    rcases Nat.eq_zero_or_pos m with rfl | hpos
    · obtain rfl := Nat.le_zero.1 hkle
      exact ⟨0, rfl⟩
    · have hkm := hklt hpos
      refine boundary (by omega) ?_
      rwa [getD_eq_getElem?_getD, getElem?_set_ne (by omega), getElem?_append_left
        (by rw [length_take]; omega), getElem?_take_of_lt hkm, ← getD_eq_getElem?_getD] at hkc
  obtain ⟨j, hj⟩ := hbound
  have hdots : (utf8 cs).take k ++ dots ++ [0] = (utf8 cs).take k ++ (dots ++ [0]) := append_assoc ..
  have hlenk : ((utf8 cs).take k).length = k := length_take_of_le (by omega)
  refine ⟨(utf8 cs).take k ++ (dots ++ [0]) ++ (((utf8 cs).take m ++ s.drop m).set m 0).drop (k + 4),
    (utf8 cs).take k ++ dots, ?_, ?_, ?_, ?_, ?_, ?_, fun h' => ?_, fun _ => ⟨j, ?_⟩⟩
  · unfold kstrcpy
    simp only [if_neg (Int32.not_le.2 hlt), if_neg (Int32.not_lt.2 hfour), hsub, hmove, Option.map_some,
      Int.toNat_natCast,
      hk, htake]
  · rw [length_append, length_append, hlenk, length_drop, hlen]
    have h4 : (dots ++ [0]).length = 4 := rfl
    omega
  · have h4 : ((utf8 cs).take k ++ (dots ++ [0])).length = k + 4 := by rw [length_append, hlenk]; rfl
    rw [drop_append, drop_eq_nil_of_le (by omega), nil_append, h4, drop_drop,
      drop_set_of_lt (by omega), drop_append, drop_eq_nil_of_le (by rw [length_take]; omega),
      nil_append, drop_drop, length_take_of_le (by omega)]
    congr 1
    omega
  · rw [hdots]
    exact prefix_append _ _
  · rw [mem_append, not_or]
    exact ⟨fun hmem => hnul (mem_of_mem_take hmem), by decide⟩
  · have h3 : dots.length = 3 := rfl
    rw [length_append, hlenk]
    omega
  · omega
  · have hall : dots.take (m + 4 - 1) = dots := take_of_length_le (Nat.le_add_left 3 m)
    rw [hj, hall]

/-- `kstrcpy` does what it is for with every buffer if the text fits or the buffer has room for `...`. -/
theorem kstrcpy_iff (hnul : 0 ∉ utf8 cs) :
    (∀ s, ns.toInt.toNat ≤ s.length → ∃ s' u, kstrcpy s (utf8 cs) ns = some s' ∧ Copied s cs ns.toInt.toNat s' u) ↔
      (utf8 cs).length < ns.toInt.toNat ∨ 4 ≤ ns ∧ ns < Int32.ofNat (utf8 cs).length + 1 := by
  constructor
  · intro h
    by_contra hcond
    rw [not_or, not_lt] at hcond
    obtain ⟨hle, hcut⟩ := hcond
    obtain ⟨s', u, hr, hc⟩ := h (replicate ns.toInt.toNat 1) (length_replicate ..).ge
    refine not_copied ?_ hc
    have hones : ∀ m, (0 : UInt8) ∉ (replicate ns.toInt.toNat (1 : UInt8)).drop m := fun m hm =>
      absurd (eq_of_mem_replicate (mem_of_mem_drop hm)) (by decide)
    unfold kstrcpy at hr
    dsimp only at hr
    by_cases hfits : Int32.ofNat (utf8 cs).length + 1 ≤ ns
    · rw [if_pos hfits] at hr
      obtain ⟨k, hk, -, -, rfl⟩ := memmove_eq_some hr
      have hkn := Int32.le_iff_toInt_le.1 hfits
      rw [hk] at hkn
      have htake : (utf8 cs ++ [0]).take k = (utf8 cs).take k := take_append_of_le_length (by omega)
      rw [htake]
      exact fun hm => (mem_append.1 (mem_of_mem_take hm)).elim (fun hm => hnul (mem_of_mem_take hm))
        (hones k)
    · have hshort : ns < 4 := by
        by_contra hns4
        exact hcut ⟨Int32.not_lt.1 hns4, Int32.not_le.1 hfits⟩
      rw [if_neg hfits, if_pos hshort, strncpy] at hr
      split_ifs at hr
      cases hr
      have htake : (utf8 cs ++ replicate ns.toInt.toNat 0).take ns.toInt.toNat = (utf8 cs).take ns.toInt.toNat :=
        take_append_of_le_length hle
      rw [htake]
      exact fun hm => (mem_append.1 (mem_of_mem_take hm)).elim (fun hm => hnul (mem_of_mem_take hm))
        (hones _)
  · rintro (h | ⟨hfour, hlt⟩) s hs
    · exact copied_whole hnul hs h
    · by_cases hfits : (utf8 cs).length < ns.toInt.toNat
      · exact copied_whole hnul hs hfits
      · exact copied_cut hnul hs (not_lt.1 hfits) hfour hlt

theorem kstrcpy_iff_abc : 0 ∉ utf8 ['a', 'b', 'c'] ∧
    ((∀ s, (4 : Int32).toInt.toNat ≤ s.length →
      ∃ s' u, kstrcpy s (utf8 ['a', 'b', 'c']) 4 = some s' ∧ Copied s ['a', 'b', 'c'] (4 : Int32).toInt.toNat s' u) ↔
      (utf8 ['a', 'b', 'c']).length < (4 : Int32).toInt.toNat ∨
        (4 : Int32) ≤ 4 ∧ (4 : Int32) < Int32.ofNat (utf8 ['a', 'b', 'c']).length + 1) :=
  ⟨by decide, kstrcpy_iff (by decide)⟩

/-- A buffer of three bytes has no NUL. -/
theorem not_kstrcpy : ¬ ∀ (cs : List Char) (ns : Int32), 0 ∉ utf8 cs → 1 ≤ ns → ∀ s, ns.toInt.toNat ≤ s.length →
    ∃ s' u, kstrcpy s (utf8 cs) ns = some s' ∧ Copied s cs ns.toInt.toNat s' u := by
  intro h
  obtain ⟨s', u, hr, hc⟩ := h ['a', 'b', 'c'] 3 (by decide) (by decide) [0, 0, 0] (by decide)
  have hs' : kstrcpy [0, 0, 0] (utf8 ['a', 'b', 'c']) 3 = some [97, 98, 99] := by decide
  obtain rfl := Option.some.inj (hr.symm.trans hs')
  exact not_copied (by decide) hc

end Node9.Kstrcpy
