import Node9.JsonRead

/-!
# Characters as escapes

`Escaped c w`: the text `w` is the character `c` as RFC 8259 escapes it, with one `\u` below U+10000 and with a pair of
surrogates from there on. The decoder takes every `\u` for a character of its own, so that what it makes of a pair is
not UTF-8: `unicode_iff`.
-/

namespace Node9.Json
open Buf Rfc8259 Lua List

def upperDigit (d : Nat) : UInt8 := if d < 10 then zero + UInt8.ofNat d else 0x41 + UInt8.ofNat (d - 10)

/-- `w` is `n` in four digits, each of either case. -/
def Hex4 (n : Nat) (w : Bytes) : Prop :=
  List.Forall₂ (fun d b => b = hexDigit d ∨ b = upperDigit d) [n / 4096, n / 256 % 16, n / 16 % 16, n % 16] w

def highSurrogate (c : Char) : Nat := 0xD800 + (c.toNat - 0x10000) / 0x400
def lowSurrogate (c : Char) : Nat := 0xDC00 + (c.toNat - 0x10000) % 0x400

inductive Escaped (c : Char) : Bytes → Prop
  | one {w : Bytes} : c.toNat < 0x10000 → Hex4 c.toNat w → Escaped c (backslash :: letterU :: w)
  | pair {v w : Bytes} : 0x10000 ≤ c.toNat → Hex4 (highSurrogate c) v → Hex4 (lowSurrogate c) w →
      Escaped c (backslash :: letterU :: v ++ backslash :: letterU :: w)

/-- The characters `cs` as the text of a string. Those of `es` are written as `\u` escapes. -/
inductive Content : Bytes → List Char → List Char → Prop
  | nil : Content [] [] []
  | raw {c : Char} {s : Bytes} {cs es : List Char} : c.toNat ≠ quote.toNat → c.toNat ≠ backslash.toNat →
  Content s cs es →
      Content (String.utf8EncodeChar c ++ s) (c :: cs) es
  | short {e : UInt8} {c : Char} {s : Bytes} {cs es : List Char} : unescape e = some (UInt8.ofNat c.toNat) →
      c.toNat < 0x80 → Content s cs es → Content (backslash :: e :: s) (c :: cs) es
  | escaped {c : Char} {w s : Bytes} {cs es : List Char} : Escaped c w → Content s cs es →
      Content (w ++ s) (c :: cs) (c :: es)

/-- Three bytes that would be a surrogate in UTF-8. -/
def Surrogate (s : Bytes) : Prop := ∃ x y : UInt8, [0xED, x, y] <:+: s ∧ 0xA0 ≤ x ∧ x ≤ 0xBF ∧ 0x80 ≤ y ∧ y ≤ 0xBF

/-- The string of the text `s` is `v`. -/
def Holds (s v : Bytes) : Prop := ∀ r, decode_string (quote :: (s ++ quote :: r)) = .ok (v, r)

/-! ### Pieces of a string -/

/-- The decoder goes on behind `s` with `v` added to the parts. -/
def Unescapes (s v : Bytes) : Prop :=
  ∀ n t parts x, stringLoop n t (parts ++ v) = .ok x → stringLoop (n + s.length) (s ++ t) parts = .ok x

section Pieces
variable {n m : Nat} {s t v w parts : Bytes} {x : Bytes × Bytes}

theorem stringLoop_mono (h : stringLoop n s parts = .ok x) (hm : n ≤ m) : stringLoop m s parts = .ok x := by
  induction n generalizing m s parts with
  | zero => cases h
  | succ n ih =>
    cases m with
    | zero => cases hm
    | succ m =>
      have hle := Nat.le_of_succ_le_succ hm
      unfold stringLoop at h ⊢
      cases hd : s.dropWhile ordinary with
      | nil =>
        rw [hd] at h
        cases h
      | cons b t =>
        rw [hd] at h
        dsimp only at h ⊢
        by_cases hq : b = quote
        · rw [if_pos hq] at h ⊢
          exact h
        rw [if_neg hq] at h ⊢
        cases t with
        | nil => cases h
        | cons e u =>
          dsimp only at h ⊢
          cases he : unescape e with
          | some y =>
            rw [he] at h
            exact ih h hle
          | none =>
            rw [he] at h
            dsimp only at h ⊢
            split_ifs at h ⊢
            · exact ih h hle
            · exact h
            · exact h

namespace Unescapes

theorem nil : Unescapes [] [] := fun n t parts x h => by rwa [append_nil] at h

theorem append (hs : Unescapes s v) (ht : Unescapes t w) : Unescapes (s ++ t) (v ++ w) := by
  intro n u parts x h
  rw [← append_assoc] at h
  have := hs _ _ _ _ (ht _ _ _ _ h)
  rw [length_append, append_assoc]
  exact stringLoop_mono this (by omega)

theorem ordinary {b : UInt8} (hb : Json.ordinary b = true) : Unescapes [b] [b] := fun n _ _ _ h =>
  stringLoop_ordinary hb (stringLoop_mono h (Nat.le_succ n))

theorem ordinaries (hs : s.all Json.ordinary) : Unescapes s s := by
  induction s with
  | nil => exact nil
  | cons b s ih =>
    rw [all_cons, Bool.and_eq_true] at hs
    exact append (ordinary hs.1) (ih hs.2)

theorem short {e b : UInt8} (he : unescape e = some b) : Unescapes [backslash, e] [b] := by
  intro n t parts x h
  exact (stringLoop_escape he).trans (stringLoop_mono h (Nat.le_succ n))

theorem code {a b c d : UInt8} (h : [a, b, c, d].all isHex) :
    Unescapes [backslash, letterU, a, b, c, d] (utf8 (tonumber16 [a, b, c, d])) := by
  intro n t parts x hx
  exact (stringLoop_unicode (n := n + 5) h).trans (stringLoop_mono hx (Nat.le_add_right n 5))

theorem of_chars {o : Bool} (h : Chars o s) : ∃ v, Unescapes s v := by
  induction h with
  | nil => exact ⟨[], nil⟩
  | @char b o s h1 h2 _ ih =>
    obtain ⟨v, hv⟩ := ih
    refine ⟨b :: v, append (s := [b]) (v := [b]) (ordinary ?_) hv⟩
    simp [Json.ordinary, h1, h2]
  | @escape e o s he _ ih =>
    obtain ⟨v, hv⟩ := ih
    rw [← isSome_unescape] at he
    obtain ⟨b, hb⟩ := Option.isSome_iff_exists.1 he
    exact ⟨[b] ++ v, append (s := [backslash, e]) (short hb) hv⟩
  | @unicode a b c d o s ha hb hc hd _ ih =>
    obtain ⟨v, hv⟩ := ih
    exact ⟨_, append (s := [backslash, letterU, a, b, c, d]) (code (by simp [ha, hb, hc, hd])) hv⟩

theorem holds (h : Unescapes s v) : Holds s v := by
  intro r
  have hend : stringLoop 1 (quote :: r) ([] ++ v) = .ok (v, r) := by
    unfold stringLoop
    change Except.ok (([] ++ v) ++ [], r) = _
    rw [append_nil, nil_append]
  exact stringLoop_mono (h 1 (quote :: r) [] _ hend) (by simp only [length_cons, length_append]; omega)

end Unescapes

theorem Holds.unique (h : Holds s v) (h' : Holds s w) : v = w := by
  cases (h []).symm.trans (h' [])
  rfl

end Pieces

section Digits
variable {n : Nat} {w : Bytes}

theorem hexValue_digit {d : Nat} (hd : d < 16) : isHex (hexDigit d) = true ∧ hexValue (hexDigit d) = d ∧
    isHex (upperDigit d) = true ∧ hexValue (upperDigit d) = d := by
  interval_cases d <;> decide

theorem Hex4.spec (h : Hex4 n w) (hn : n < 0x10000) :
    ∃ a b c d, w = [a, b, c, d] ∧ [a, b, c, d].all isHex ∧ tonumber16 [a, b, c, d] = n := by
  have hdigit : ∀ {d : Nat} {b : UInt8}, d < 16 → b = hexDigit d ∨ b = upperDigit d →
      isHex b = true ∧ hexValue b = d := by
    intro d b hd hb
    obtain ⟨h1, h2, h3, h4⟩ := hexValue_digit hd
    rcases hb with rfl | rfl
    · exact ⟨h1, h2⟩
    · exact ⟨h3, h4⟩
  obtain _ | @⟨_, a, _, _, ha, h⟩ := h
  obtain _ | @⟨_, b, _, _, hb, h⟩ := h
  obtain _ | @⟨_, c, _, _, hc, h⟩ := h
  obtain _ | @⟨_, d, _, _, hd, h⟩ := h
  cases h
  obtain ⟨ha, hva⟩ := hdigit (by omega) ha
  obtain ⟨hb, hvb⟩ := hdigit (by omega) hb
  obtain ⟨hc, hvc⟩ := hdigit (by omega) hc
  obtain ⟨hd, hvd⟩ := hdigit (by omega) hd
  refine ⟨a, b, c, d, rfl, by simp [ha, hb, hc, hd], ?_⟩
  simp only [tonumber16, foldl_cons, foldl_nil, hva, hvb, hvc, hvd]
  omega

theorem Hex4.unescapes (h : Hex4 n w) (hn : n < 0x10000) : Unescapes (backslash :: letterU :: w) (utf8 n) := by
  obtain ⟨a, b, c, d, rfl, hhex, hval⟩ := h.spec hn
  have := Unescapes.code hhex
  rwa [hval] at this

end Digits

section Utf8
variable {c : Char} {s t : Bytes}

theorem toNat_cases (c : Char) : c.toNat < 0xD800 ∨ 0xDFFF < c.toNat ∧ c.toNat < 0x110000 := c.valid

theorem utf8EncodeChar_eq (h : c.toNat < 0x10000) : String.utf8EncodeChar c = utf8 c.toNat := by
  have hval : c.val.toNat = c.toNat := rfl
  unfold String.utf8EncodeChar utf8
  dsimp only
  rw [hval]
  by_cases h1 : c.toNat < 0x80
  · rw [if_pos h1, if_pos (by omega)]
  rw [if_neg h1, if_neg (by omega)]
  by_cases h2 : c.toNat < 0x800
  · rw [if_pos h2, if_pos (by omega), Nat.mod_eq_of_lt (by omega : c.toNat / 64 < 0x20), add_comm (c.toNat / 64),
      add_comm (c.toNat % 64)]
  · rw [if_neg h2, if_neg (by omega), if_pos (by omega), Nat.mod_eq_of_lt (by omega : c.toNat / 4096 < 0x10),
      add_comm (c.toNat / 4096), add_comm (c.toNat / 64 % 64), add_comm (c.toNat % 64)]

theorem length_utf8EncodeChar (h : 0x10000 ≤ c.toNat) : (String.utf8EncodeChar c).length = 4 := by
  have hval : c.val.toNat = c.toNat := rfl
  unfold String.utf8EncodeChar
  dsimp only
  rw [hval, if_neg (by omega), if_neg (by omega), if_neg (by omega)]
  rfl

theorem utf8_surrogate {n : Nat} (h : 0xD800 ≤ n) (h' : n < 0xE000) : Surrogate (utf8 n) ∧ (utf8 n).length = 3 := by
  have hu : utf8 n = [UInt8.ofNat (0xE0 + n / 4096), UInt8.ofNat (0x80 + n / 64 % 64),
    UInt8.ofNat (0x80 + n % 64)] := by
    unfold utf8
    rw [if_neg (by omega), if_neg (by omega)]
  have hlead : 0xE0 + n / 4096 = 0xED := by omega
  rw [hu, hlead]
  refine ⟨⟨_, _, infix_rfl, ?_, ?_, ?_, ?_⟩, rfl⟩ <;>
    rw [UInt8.le_iff_toNat_le, UInt8.toNat_ofNat'] <;>
    simp only [UInt8.reduceToNat] <;>
    omega

theorem toNat_byte {n : Nat} (h : n < 256) : (UInt8.ofNat n).toNat = n := by
  rw [UInt8.toNat_ofNat', Nat.mod_eq_of_lt h]

theorem continuation_spec (n : Nat) :
    0x80 ≤ UInt8.ofNat (n % 0x40 + 0x80) ∧ UInt8.ofNat (n % 0x40 + 0x80) ≤ 0xBF := by
  rw [UInt8.le_iff_toNat_le, UInt8.le_iff_toNat_le, toNat_byte (by omega)]
  simp only [UInt8.reduceToNat]
  omega

theorem lead_spec {n : Nat} (h : 0x80 ≤ n) (h' : n < 256) :
    0x80 ≤ UInt8.ofNat n ∧ (UInt8.ofNat n = 0xED → n = 0xED) := by
  constructor
  · rw [UInt8.le_iff_toNat_le, toNat_byte h']
    exact h
  · intro hx
    have := congrArg UInt8.toNat hx
    rwa [toNat_byte h'] at this

theorem utf8EncodeChar_cases (c : Char) : (String.utf8EncodeChar c = [UInt8.ofNat c.toNat] ∧ c.toNat < 0x80) ∨
    ∃ x t, String.utf8EncodeChar c = x :: t ∧ 0x80 ≤ x ∧ (∀ y ∈ t, 0x80 ≤ y ∧ y ≤ 0xBF) ∧
      (x = 0xED → ∃ y z, t = [y, z] ∧ y < 0xA0) := by
  have hval : c.val.toNat = c.toNat := rfl
  have hc := toNat_cases c
  unfold String.utf8EncodeChar
  dsimp only
  rw [hval]
  by_cases h1 : c.toNat ≤ 0x7f
  · rw [if_pos h1]
    exact .inl ⟨rfl, by omega⟩
  right
  rw [if_neg h1]
  by_cases h2 : c.toNat ≤ 0x7ff
  · rw [if_pos h2]
    obtain ⟨hlead, hed⟩ := lead_spec (n := c.toNat / 64 % 0x20 + 0xc0) (by omega) (by omega)
    refine ⟨_, _, rfl, hlead, ?_, fun hx => ?_⟩
    · intro y hy
      rw [mem_singleton.1 hy]
      exact continuation_spec _
    · have := hed hx
      omega
  rw [if_neg h2]
  by_cases h3 : c.toNat ≤ 0xffff
  · rw [if_pos h3]
    obtain ⟨hlead, hed⟩ := lead_spec (n := c.toNat / 4096 % 0x10 + 0xe0) (by omega) (by omega)
    refine ⟨_, _, rfl, hlead, ?_, fun hx => ⟨_, _, rfl, ?_⟩⟩
    · intro y hy
      rcases mem_pair.1 hy with rfl | rfl <;> exact continuation_spec _
    · have := hed hx
      rw [UInt8.lt_iff_toNat_lt, toNat_byte (by omega)]
      simp only [UInt8.reduceToNat]
      omega
  · rw [if_neg h3]
    obtain ⟨hlead, hed⟩ := lead_spec (n := c.toNat / 262144 % 0x08 + 0xf0) (by omega) (by omega)
    refine ⟨_, _, rfl, hlead, ?_, fun hx => ?_⟩
    · intro y hy
      simp only [mem_cons, not_mem_nil, or_false] at hy
      rcases hy with rfl | rfl | rfl <;> exact continuation_spec _
    · have := hed hx
      omega

theorem not_surrogate_utf8 (cs : List Char) : ¬ Surrogate (cs.flatMap String.utf8EncodeChar) := by
  rintro ⟨x, y, ⟨a, b, hab⟩, hx, -⟩
  rw [append_assoc] at hab
  induction cs generalizing a with
  | nil =>
    have := congrArg List.length hab
    simp at this
  | cons c cs ih =>
    rw [flatMap_cons, append_eq_append_iff] at hab
    rcases hab with ⟨u, hu, h⟩ | ⟨u, hu, h⟩
    · cases u with
      | nil =>
        rw [nil_append] at h
        exact ih [] h
      | cons z u =>
        simp only [cons_append, nil_append, List.cons.injEq] at h
        obtain ⟨rfl, h⟩ := h
        rcases utf8EncodeChar_cases c with ⟨hc, hlt⟩ | ⟨z, t, hc, hz, ht, hed⟩
        · rw [hc] at hu
          cases a with
          | nil =>
            have := congrArg UInt8.toNat (List.cons.inj hu).1
            rw [toNat_byte (by omega)] at this
            simp only [UInt8.reduceToNat] at this
            omega
          | cons z a => exact cons_ne_nil _ _ (append_eq_nil_iff.1 (List.cons.inj hu).2.symm).2
        rw [hc] at hu
        cases a with
        | nil =>
          obtain ⟨hz, rfl⟩ := List.cons.inj hu
          obtain ⟨y', z', rfl, hlt⟩ := hed hz
          obtain rfl := (List.cons.inj h).1
          exact absurd hx (UInt8.not_le.2 hlt)
        | cons z a =>
          obtain ⟨-, rfl⟩ := List.cons.inj hu
          exact absurd (ht 0xED (mem_append_right _ mem_cons_self)).2 (by decide)
    · exact ih _ h.symm

theorem Surrogate.mono (h : Surrogate s) (hst : s <:+: t) : Surrogate t := by
  obtain ⟨x, y, hs, hxy⟩ := h
  exact ⟨x, y, hs.trans hst, hxy⟩

end Utf8

/-! ### Escapes in a string -/

section Strings
variable {c : Char} {s t v w : Bytes} {cs es : List Char}

theorem Escaped.unescapes (h : Escaped c w) : ∃ v, Unescapes w v ∧ (c.toNat < 0x10000 → v = String.utf8EncodeChar c) ∧
    (0x10000 ≤ c.toNat → Surrogate v ∧ v.length = 6) := by
  have hc := toNat_cases c
  cases h with
  | one hlt hw => exact ⟨_, hw.unescapes hlt, fun _ => (utf8EncodeChar_eq hlt).symm, fun hge => by omega⟩
  | @pair v w hge hv hw =>
    have hhigh : 0xD800 ≤ highSurrogate c ∧ highSurrogate c < 0xE000 := by
      unfold highSurrogate
      omega
    have hlow : 0xD800 ≤ lowSurrogate c ∧ lowSurrogate c < 0xE000 := by
      unfold lowSurrogate
      omega
    obtain ⟨hs, hl⟩ := utf8_surrogate hhigh.1 hhigh.2
    obtain ⟨-, hl'⟩ := utf8_surrogate hlow.1 hlow.2
    refine ⟨_, (hv.unescapes (by omega)).append (hw.unescapes (by omega)), fun hlt => by omega, fun _ => ⟨?_, ?_⟩⟩
    · exact hs.mono (prefix_append _ _).isInfix
    · rw [length_append, hl, hl']

theorem Content.unescapes (h : Content s cs es) : ∃ v, Unescapes s v ∧
    ((∀ c ∈ es, c.toNat < 0x10000) → v = cs.flatMap String.utf8EncodeChar) ∧
      ((∃ c ∈ es, 0x10000 ≤ c.toNat) → Surrogate v) := by
  induction h with
  | nil => exact ⟨[], .nil, fun _ => rfl, fun hes => by simp at hes⟩
  | @raw c s cs es hq hb _ ih =>
    obtain ⟨v, hv, hlow, hhigh⟩ := ih
    have hord : (String.utf8EncodeChar c).all ordinary := by
      have hbyte : ∀ x : UInt8, 0x80 ≤ x → ordinary x = true := fun x hx => by
        simp only [ordinary, Bool.and_eq_true, bne_iff_ne]
        constructor
        · rintro rfl
          exact absurd hx (by decide)
        · rintro rfl
          exact absurd hx (by decide)
      rcases utf8EncodeChar_cases c with ⟨hc, hlt⟩ | ⟨x, t, hc, hx, ht, -⟩
      · have hne : ∀ b : UInt8, c.toNat ≠ b.toNat → UInt8.ofNat c.toNat ≠ b := by
          rintro b hcb rfl
          rw [toNat_byte (by omega)] at hcb
          exact hcb rfl
        rw [hc, all_cons, all_nil, Bool.and_true, ordinary, Bool.and_eq_true, bne_iff_ne, bne_iff_ne]
        exact ⟨hne _ hq, hne _ hb⟩
      · rw [hc, all_cons, hbyte x hx, Bool.true_and, all_eq_true]
        exact fun y hy => hbyte y (ht y hy).1
    refine ⟨_, (Unescapes.ordinaries hord).append hv, fun hes => ?_, fun hes => ?_⟩
    · rw [hlow hes, flatMap_cons]
    · exact (hhigh hes).mono (suffix_append _ _).isInfix
  | @short e c s cs es he hlt _ ih =>
    obtain ⟨v, hv, hlow, hhigh⟩ := ih
    have hc : String.utf8EncodeChar c = [UInt8.ofNat c.toNat] := by
      rw [utf8EncodeChar_eq (by omega), utf8, if_pos hlt]
    refine ⟨_, (Unescapes.short he).append hv, fun hes => ?_, fun hes => ?_⟩
    · rw [hlow hes, flatMap_cons, hc]
    · exact (hhigh hes).mono (suffix_append _ _).isInfix
  | @escaped c w s cs es hw _ ih =>
    obtain ⟨v, hv, hlow, hhigh⟩ := ih
    obtain ⟨u, hu, hlow', hhigh'⟩ := hw.unescapes
    refine ⟨_, hu.append hv, fun hes => ?_, ?_⟩
    · rw [hlow fun x hx => hes x (mem_cons_of_mem _ hx), hlow' (hes c mem_cons_self), flatMap_cons]
    · rintro ⟨x, hx, hge⟩
      rcases mem_cons.1 hx with rfl | hx
      · exact (hhigh' hge).1.mono (prefix_append _ _).isInfix
      · exact (hhigh ⟨x, hx, hge⟩).mono (suffix_append _ _).isInfix

/-- Between `s` and `t`, which are read as they are alone, the escape `w` is read as the UTF-8 of `c`. -/
def Placed (c : Char) (s w t : Bytes) : Prop :=
  ∃ u v, Holds s u ∧ Holds t v ∧ Holds (s ++ w ++ t) (u ++ String.utf8EncodeChar c ++ v)

theorem placed_iff {o o' : Bool} (hw : Escaped c w) (hs : Chars o s) (ht : Chars o' t) :
    Placed c s w t ↔ c.toNat < 0x10000 := by
  obtain ⟨u, hu⟩ := Unescapes.of_chars hs
  obtain ⟨v, hv⟩ := Unescapes.of_chars ht
  obtain ⟨x, hx, hlow, hhigh⟩ := hw.unescapes
  have hall := ((hu.append hx).append hv).holds
  constructor
  · rintro ⟨u', v', hu', hv', h⟩
    obtain rfl := hu.holds.unique hu'
    obtain rfl := hv.holds.unique hv'
    obtain rfl := append_cancel_left (append_cancel_right (hall.unique h))
    by_contra hge
    have h6 := (hhigh (by omega)).2
    rw [length_utf8EncodeChar (by omega)] at h6
    omega
  · intro hlt
    rw [hlow hlt] at hall
    exact ⟨u, v, hu.holds, hv.holds, hall⟩

/-- An escape is read as the UTF-8 of its character, and a string of escapes as one without surrogates, if and only if
no character is beyond U+FFFF. -/
theorem unicode_iff {c : Char} {w s t u : Bytes} {o o' : Bool} {cs es : List Char} (hw : Escaped c w) (hs : Chars o s)
    (ht : Chars o' t) (h : Content u cs es) :
    (Placed c s w t ↔ c.toNat < 0x10000) ∧
      ((∃ v, Holds u v ∧ ¬ Surrogate v) ↔ ∀ c ∈ es, c.toNat < 0x10000) := by
  refine ⟨placed_iff hw hs ht, ?_⟩
  obtain ⟨v, hv, hlow, hhigh⟩ := h.unescapes
  constructor
  · rintro ⟨v', hv', hn⟩ c hc
    obtain rfl := hv.holds.unique hv'
    by_contra hge
    exact hn (hhigh ⟨c, hc, by omega⟩)
  · intro hes
    refine ⟨v, hv.holds, ?_⟩
    rw [hlow hes]
    exact not_surrogate_utf8 cs

/-- U+1F600, as `\uD83D\ude00`. -/
def grin : Bytes := [backslash, letterU, 0x44, 0x38, 0x33, 0x44, backslash, letterU, 0x64, 0x65, 0x30, 0x30]

theorem escaped_grin : Escaped (Char.ofNat 0x1F600) grin := by
  refine .pair (v := [0x44, 0x38, 0x33, 0x44]) (w := [0x64, 0x65, 0x30, 0x30]) (by decide) ?_ ?_
  · exact .cons (by decide) (.cons (by decide) (.cons (by decide) (.cons (by decide) .nil)))
  · exact .cons (by decide) (.cons (by decide) (.cons (by decide) (.cons (by decide) .nil)))

theorem unicode_iff_grin :
    (Placed (Char.ofNat 0x1F600) [0x61] grin [0x62] ↔ (Char.ofNat 0x1F600).toNat < 0x10000) ∧
      ((∃ v, Holds (grin ++ []) v ∧ ¬ Surrogate v) ↔ ∀ c ∈ [Char.ofNat 0x1F600], c.toNat < 0x10000) :=
  unicode_iff escaped_grin (.char (by decide) (by decide) .nil) (.char (by decide) (by decide) .nil)
    (.escaped escaped_grin .nil)

/-- A pair of escapes is not read as UTF-8, and leaves a surrogate in the string. -/
theorem unicode_grin :
    (¬ ∀ (c : Char) (w : Bytes), Escaped c w → ∀ (s t : Bytes) (o o' : Bool), Chars o s → Chars o' t → Placed c s w t) ∧
      ¬ ∀ (s : Bytes) (cs es : List Char), Content s cs es → ∀ v, Holds s v → ¬ Surrogate v := by
  constructor
  · intro hall
    have := (placed_iff escaped_grin .nil .nil).1 (hall _ _ escaped_grin [] [] _ _ .nil .nil)
    exact absurd this (by decide)
  · intro hall
    have hcont : Content (grin ++ []) [Char.ofNat 0x1F600] [Char.ofNat 0x1F600] := .escaped escaped_grin .nil
    obtain ⟨v, hv, -, hhigh⟩ := hcont.unescapes
    exact hall _ _ _ hcont v hv.holds (hhigh ⟨_, List.mem_singleton_self _, by decide⟩)

end Strings

end Node9.Json
