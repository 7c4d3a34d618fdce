import Node9.RuneUtf

/-!
# Formatted output (`dofmt.c` and `vsnprint.c` of lib9)

What a format writes is a list of units, the bytes of a literal character or of a rune; `place` writes them while
there is room. `%s` copies its string rune by rune (`copied`): a byte that is no rune comes out as the error rune,
and a part of a rune at the end does not come out at all. A valid text is copied as it is (`copied_valid`).
-/

namespace Node9.Fmt
open Buf Rune Utf8
open List hiding tails

/-- The loop of `_fmtcpy`, with at least as many turns as `m` has bytes. -/
def copyLoop : Nat → Bytes → List Bytes
  | 0, _ => []
  | _ + 1, [] => []
  | fuel + 1, b :: m =>
    if b.toNat < Runeself then [b] :: copyLoop fuel m
    else if (b :: m).length ≥ UTFmax ∨ fullrune (b :: m) (b :: m).length = true then
      (runetochar (chartorune (b :: m)).1).1 :: copyLoop fuel ((b :: m).drop (chartorune (b :: m)).2)
    else []

/-- The units of `%s` for a string. -/
def copied (s : Bytes) : List Bytes := copyLoop s.length s

/-- The units of the characters of a format. -/
def literal (s : Bytes) : List Bytes := s.map ([·])

/-- `FMTCHAR` and `FMTRUNE` where there is no flush: the output ends at the first unit without room. -/
def place (room : Nat) : List Bytes → Bytes → Bytes
  | [], out => out
  | u :: us, out => if out.length + u.length > room then out else place room us (out ++ u)

/-- The string that is in the buffer, without its null. -/
def snprint (len : Nat) (us : List Bytes) : Bytes := place (len - 1) us []

def sprint (us : List Bytes) : Bytes := snprint (2 ^ 30) us

variable {room : Nat} {us : List Bytes} {out : Bytes}

theorem place_le : ∀ (us : List Bytes) (out : Bytes), out.length ≤ room → (place room us out).length ≤ room
  | [], _, h => h
  | u :: us, out, h => by
    rw [place]
    split_ifs with hfull
    · exact h
    · refine place_le us _ ?_
      rw [List.length_append]
      exact Nat.not_lt.1 hfull

theorem place_eq : ∀ (us : List Bytes) (out : Bytes), out.length + us.flatten.length ≤ room →
    place room us out = out ++ us.flatten
  | [], out, _ => (List.append_nil out).symm
  | u :: us, out, h => by
    rw [List.flatten_cons, List.length_append] at h
    rw [place, if_neg (by omega), place_eq us _ (by rw [List.length_append]; omega), List.flatten_cons,
      List.append_assoc]

theorem snprint_lt {len : Nat} (h : 0 < len) (us : List Bytes) : (snprint len us).length < len := by
  have hle : (place (len - 1) us []).length ≤ len - 1 := place_le us [] zero_le
  rw [snprint]
  omega

theorem sprint_eq (h : us.flatten.length < 2 ^ 30) : sprint us = us.flatten :=
  place_eq us [] (by rw [length_nil]; omega)

@[simp] theorem literal_flatten (s : Bytes) : (literal s).flatten = s := by
  induction s with
  | nil => rfl
  | cons b s ih => exact congrArg (b :: ·) ih

theorem runetochar_length_le (c : Nat) : (runetochar c).1.length ≤ 4 := by
  rw [runetochar_eq]
  dsimp only
  rw [encode_length]
  exact Nat.succ_le_succ extra_le

theorem copyLoop_length_le : ∀ (fuel : Nat) (m : Bytes), (copyLoop fuel m).flatten.length ≤ 4 * m.length
  | 0, _ => Nat.zero_le _
  | _ + 1, [] => Nat.zero_le _
  | fuel + 1, b :: m => by
    have hfull := (chartorune_spec (c := b) (t := m)).2.2.1
    rw [copyLoop]
    split_ifs with h1 h2
    · have := copyLoop_length_le fuel m
      rw [flatten_cons, length_append, length_singleton, length_cons]
      omega
    · have hrest := copyLoop_length_le fuel ((b :: m).drop (chartorune (b :: m)).2)
      have hrune := runetochar_length_le (chartorune (b :: m)).1
      rw [length_drop] at hrest
      rw [flatten_cons, length_append]
      rw [length_cons] at hrest ⊢
      omega
    · exact zero_le

theorem copied_length_le (s : Bytes) : (copied s).flatten.length ≤ 4 * s.length := copyLoop_length_le _ s

theorem lead_toNat {c : Nat} (hc : Scalar c) (t : Bytes) :
    ((encode c ++ t).getD 0 0).toNat = lead (extra c) + c / 64 ^ extra c := by
  obtain ⟨hmax, -⟩ := hc
  have hlt : lead (extra c) + c / 64 ^ extra c < 256 := by
    unfold extra
    split_ifs with h1 h2 h3
    · show 0 + c / 1 < 256
      omega
    · show 0xC0 + c / 64 < 256
      omega
    · show 0xE0 + c / 4096 < 256
      omega
    · show 0xF0 + c / 262144 < 256
      omega
  exact toNat_ofNat_of_lt hlt

theorem fullrune_encode {c : Nat} (hc : Scalar c) (t : Bytes) :
    fullrune (encode c ++ t) (encode c ++ t).length = true := by
  have hlead := lead_toNat hc t
  have hlen : (encode c ++ t).length = extra c + 1 + t.length := by rw [length_append, encode_length]
  obtain ⟨hmax, -⟩ := hc
  unfold fullrune
  rw [if_neg (by rw [hlen]; omega), hlead, hlen]
  split_ifs with h1
  · rfl
  have hbig : 0x80 ≤ c := by
    by_contra hlt
    rw [extra_one (Nat.not_le.1 hlt)] at h1
    exact h1 (show 0 + c / 1 < 0x80 by omega)
  rcases lt_or_ge c 0x800 with h2 | h2
  · have hT3 : lead 1 + c / 64 ^ 1 < T (UTFmax - 1) := show 0xC0 + c / 64 < 0xE0 by omega
    rw [extra_two hbig h2, fullLoop, if_pos hT3]
    exact decide_eq_true (show ((1 + 1 + t.length : Nat) : Int) ≥ ((3 : Nat) : Int) - 1 by omega)
  rcases lt_or_ge c 0x10000 with h3 | h3
  · have hT3 : ¬ lead 2 + c / 64 ^ 2 < T (UTFmax - 1) := show ¬ 0xE0 + c / 4096 < 0xE0 by omega
    have hT4 : lead 2 + c / 64 ^ 2 < T (UTFmax - 0) := show 0xE0 + c / 4096 < 0xF0 by omega
    rw [extra_three h2 h3, fullLoop, if_neg hT3, fullLoop, if_pos hT4]
    exact decide_eq_true (show ((2 + 1 + t.length : Nat) : Int) ≥ ((4 : Nat) : Int) - 1 by omega)
  · have hT3 : ¬ lead 3 + c / 64 ^ 3 < T (UTFmax - 1) := show ¬ 0xF0 + c / 262144 < 0xE0 by omega
    have hT4 : ¬ lead 3 + c / 64 ^ 3 < T (UTFmax - 0) := show ¬ 0xF0 + c / 262144 < 0xF0 by omega
    rw [extra_four h3, fullLoop, if_neg hT3, fullLoop, if_neg hT4, fullLoop]
    exact decide_eq_true (show ((3 + 1 + t.length : Nat) : Int) ≥ ((4 : Nat) : Int) by omega)

/-- How the loops over a string take a scalar. -/
def Takes (c : Nat) (t : Bytes) (b : UInt8) (m : Bytes) : Prop :=
  ¬ b.toNat < Runeself ∧ fullrune (b :: (m ++ t)) (b :: (m ++ t)).length = true ∧
    chartorune (b :: (m ++ t)) = (c, (b :: m).length) ∧ (b :: (m ++ t)).drop (b :: m).length = t ∧
      (runetochar c).1 = b :: m

theorem encode_takes {c : Nat} (hc : Scalar c) (t : Bytes) :
    (∃ b, encode c = [b] ∧ b.toNat = c ∧ c < Runeself) ∨ ∃ b m, encode c = b :: m ∧ Takes c t b m := by
  have hrune := chartorune_encode hc fun k hk => getD_append (encode c) t 0 k hk
  have hfull := fullrune_encode hc t
  have hdrop : (encode c ++ t).drop (encode c).length = t := drop_left
  have hlead := lead_toNat hc t
  rcases lt_or_ge c 0x80 with h1 | h1
  · exact .inl ⟨UInt8.ofNat c, encode_one h1, toNat_ofNat_of_lt (by omega), h1⟩
  obtain ⟨b, m, hb⟩ : ∃ b m, encode c = b :: m := ⟨_, _, rfl⟩
  refine .inr ⟨b, m, hb, ?_, ?_, ?_, ?_, ?_⟩
  · rw [hb] at hlead
    rw [show b.toNat = _ from hlead]
    refine Nat.not_lt.2 (show 0x80 ≤ _ from ?_)
    have : 0x80 ≤ lead (extra c) := by
      unfold extra
      rw [if_neg (Nat.not_lt.2 h1)]
      split_ifs <;> decide
    exact le_trans this (Nat.le_add_right _ _)
  · rwa [hb] at hfull
  · rwa [hb] at hrune
  · rwa [hb] at hdrop
  · rw [runetochar_eq, if_pos hc, hb]

theorem copyLoop_encode {c : Nat} (hc : Scalar c) (fuel : Nat) (t : Bytes) :
    copyLoop (fuel + 1) (encode c ++ t) = encode c :: copyLoop fuel t := by
  rcases encode_takes hc t with ⟨b, hb, hbyte, hlow⟩ | ⟨b, m, hb, hbig, hfull, hrune, hdrop, hchar⟩
  · rw [hb]
    exact if_pos (hbyte.symm ▸ hlow)
  · rw [hb, cons_append, copyLoop, if_neg hbig, if_pos (.inr hfull), hrune, hdrop, hchar]

theorem length_le_encode : ∀ (cs : List Nat), cs.length ≤ (cs.flatMap encode).length
  | [] => le_rfl
  | c :: cs => by
    have := length_le_encode cs
    rw [flatMap_cons, length_append, encode_length, length_cons]
    omega

theorem copyLoop_valid : ∀ (cs : List Nat) (fuel : Nat), (∀ c ∈ cs, Scalar c) → cs.length ≤ fuel →
    (copyLoop fuel (cs.flatMap encode)).flatten = cs.flatMap encode
  | [], fuel, _, _ => by
    rcases fuel with _ | fuel <;> rfl
  | c :: cs, fuel, hcs, hf => by
    obtain ⟨fuel, rfl⟩ := Nat.exists_eq_succ_of_ne_zero (Nat.ne_of_gt (lt_of_lt_of_le (Nat.succ_pos _) hf))
    rw [flatMap_cons, copyLoop_encode (hcs c mem_cons_self), flatten_cons,
      copyLoop_valid cs fuel (fun d hd => hcs d (mem_cons_of_mem c hd)) (Nat.le_of_succ_le_succ hf)]

end Node9.Fmt
