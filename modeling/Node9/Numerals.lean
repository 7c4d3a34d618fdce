import Node9.Lib.Buf

/-!
# Numerals (`_ifmt` of lib9, and `strtoul` and `atoi`)

The text that is printed for a number is read as that number again (`strtoul_ifmt`), in base 0, too, if it is decimal
(`strtoul_decimal`).
-/

namespace Node9.Numerals
open Buf List Option

/-- `"0123456789abcdef"` -/
def conv (d : Nat) : UInt8 := if d < 10 then UInt8.ofNat (48 + d) else UInt8.ofNat (87 + d)

/-- The text of an unsigned number. -/
def ifmt (base n : Nat) : Bytes := if n = 0 then [48] else (Nat.digits base n).reverse.map conv

def isspace (c : UInt8) : Bool := c = 32 || (9 ≤ c && c ≤ 13)

def digitVal (c : UInt8) : Option Nat :=
  if 48 ≤ c ∧ c ≤ 57 then some (c.toNat - 48)
  else if 97 ≤ c ∧ c ≤ 122 then some (c.toNat - 87)
  else if 65 ≤ c ∧ c ≤ 90 then some (c.toNat - 55)
  else none

def digit (base : Nat) (c : UInt8) : Option Nat := (digitVal c).filter (· < base)

/-- The digits at the start, and the rest. -/
def scanDigits (base : Nat) : Bytes → List Nat × Bytes
  | [] => ([], [])
  | c :: s => (digit base c).elim ([], c :: s) fun d => (d :: (scanDigits base s).1, (scanDigits base s).2)

def value (base : Nat) (ds : List Nat) : Nat := ds.foldl (fun v d => base * v + d) 0

/-- Blanks and a sign in front of a numeral: whether it is negative, and the rest. -/
def skipSign (s : Bytes) : Bool × Bytes :=
  let s := s.dropWhile isspace
  if s.head? = some 45 then (true, s.tail) else if s.head? = some 43 then (false, s.tail) else (false, s)

/-- Whether the numeral starts with `0x`. -/
def hexed (base : Nat) (s : Bytes) : Bool :=
  (base = 0 || base = 16) && s.getD 0 0 = 48 && (s.getD 1 0 = 120 || s.getD 1 0 = 88) &&
    (digit 16 (s.getD 2 0)).isSome

/-- The value, of 64 bits, and where the numeral ends; without digits that is where `s` starts. -/
def strtoul (base : Nat) (s : Bytes) : Nat × Bytes :=
  let t := skipSign s
  let hex := hexed base t.2
  let base := if base = 0 then if hex then 16 else if t.2.getD 0 0 = 48 then 8 else 10 else base
  let r := scanDigits base (if hex then t.2.drop 2 else t.2)
  if r.1 = [] then (0, s)
  else
    let v := value base r.1
    (if v ≥ 2 ^ 64 then 2 ^ 64 - 1 else if t.1 then (2 ^ 64 - v) % 2 ^ 64 else v, r.2)

/-- `strtol` in base 10, and of that the low 32 bits. -/
def atoi (s : Bytes) : Int :=
  let t := skipSign s
  let v : Int := value 10 (scanDigits 10 t.2).1
  (BitVec.ofInt 32 (if t.1 then max (-v) (-2 ^ 63) else min v (2 ^ 63 - 1))).toInt

/-! ### What is printed is read -/

variable {base n : Nat} {t : Bytes}

theorem digitVal_conv {d : Nat} (h : d < 16) : digitVal (conv d) = some d := by
  have hall : ∀ d < 16, digitVal (conv d) = some d := by decide
  exact hall d h

theorem digit_conv {d : Nat} (h : d < base) (hb : base ≤ 16) : digit base (conv d) = some d := by
  rw [digit, digitVal_conv (lt_of_lt_of_le h hb), filter_some, if_pos (decide_eq_true h)]

/-- Nothing that goes on with a numeral. -/
def Stops (t : Bytes) : Prop := ∀ c ∈ t.head?, digitVal c = none

theorem stops_nil : Stops [] := by
  rintro c ⟨⟩

theorem stops_cons {c : UInt8} (h : digitVal c = none) (s : Bytes) : Stops (c :: s) := by
  rintro x ⟨⟩
  exact h

theorem scanDigits_stops (ht : Stops t) : scanDigits base t = ([], t) := by
  rcases t with _ | ⟨c, t⟩
  · rfl
  · rw [scanDigits, digit, ht c rfl]
    rfl

theorem scanDigits_map (hb : base ≤ 16) (ht : Stops t) : ∀ {ds : List Nat}, (∀ d ∈ ds, d < base) →
    scanDigits base (ds.map conv ++ t) = (ds, t)
  | [], _ => scanDigits_stops ht
  | d :: ds, h => by
    rw [map_cons, cons_append, scanDigits, digit_conv (h d mem_cons_self) hb, elim_some,
      scanDigits_map hb ht fun x hx => h x (mem_cons_of_mem d hx)]

theorem value_reverse (ds : List Nat) : value base ds.reverse = Nat.ofDigits base ds := by
  rw [value, foldl_reverse]
  induction ds with
  | nil => rfl
  | cons d ds ih =>
    rw [foldr_cons, ih, Nat.ofDigits_cons]
    exact add_comm ..

theorem exists_digits (hb : 1 < base) (n : Nat) : ∃ d ds, ifmt base n = (d :: ds).map conv ∧
    (∀ x ∈ d :: ds, x < base) ∧ value base (d :: ds) = n ∧ (d = 0 → ds = []) := by
  by_cases hn : n = 0
  · refine ⟨0, [], by rw [ifmt, if_pos hn]; rfl, by simpa using by omega, hn.symm ▸ rfl, fun _ => rfl⟩
  have hne := (Nat.digits_ne_nil_iff_ne_zero (b := base)).2 hn
  have hlead := Nat.getLast_digit_ne_zero base hn
  obtain ⟨d, ds, hds⟩ := exists_cons_of_ne_nil (reverse_eq_nil_iff.not.2 hne)
  refine ⟨d, ds, by rw [ifmt, if_neg hn, hds], ?_, ?_, ?_⟩
  · intro x hx
    rw [← hds] at hx
    exact Nat.digits_lt_base hb (mem_reverse.1 hx)
  · rw [← hds, value_reverse, Nat.ofDigits_digits]
  · intro hd
    have hhead : d = (Nat.digits base n).getLast hne := by
      rw [← head_reverse (by simpa using hne)]
      simp [hds]
    exact absurd (hhead.symm.trans hd) hlead

theorem skipSign_conv {d : Nat} (h : d < 16) (s : Bytes) : skipSign (conv d :: s) = (false, conv d :: s) := by
  have hall : ∀ d < 16, isspace (conv d) = false ∧ conv d ≠ 45 ∧ conv d ≠ 43 := by decide
  obtain ⟨hsp, h1, h2⟩ := hall d h
  have hdrop : (conv d :: s).dropWhile isspace = conv d :: s := by rw [dropWhile_cons, hsp]; rfl
  rw [skipSign, hdrop, head?_cons, if_neg (fun h => h1 (some.inj h)), if_neg (fun h => h2 (some.inj h))]

theorem not_x {c : UInt8} (h : digitVal c = none) : c ≠ 120 ∧ c ≠ 88 := by
  constructor
  · rintro rfl
    exact absurd h (by decide)
  · rintro rfl
    exact absurd h (by decide)

theorem hexed_map {b d : Nat} (hb : base ≤ 16) (ht : Stops t) {ds : List Nat} (h : ∀ x ∈ d :: ds, x < base) :
    hexed b ((d :: ds).map conv ++ t) = false := by
  have hx : ((d :: ds).map conv ++ t).getD 1 0 ≠ 120 ∧ ((d :: ds).map conv ++ t).getD 1 0 ≠ 88 := by
    rcases ds with _ | ⟨e, ds⟩
    · rcases t with _ | ⟨c, t⟩
      · exact ⟨by simp, by simp⟩
      · exact not_x (ht c rfl)
    · have hall : ∀ d < 16, conv d ≠ 120 ∧ conv d ≠ 88 := by decide
      exact hall e (lt_of_lt_of_le (h e (by simp)) hb)
  rw [hexed, decide_eq_false hx.1, decide_eq_false hx.2, Bool.or_false, Bool.and_false, Bool.false_and]

theorem strtoul_map {b d : Nat} (hb : base ≤ 16) (ht : Stops t) {ds : List Nat} (h : ∀ x ∈ d :: ds, x < base)
    (hbase : (if b = 0 then if conv d = 48 then 8 else 10 else b) = base) :
    strtoul b ((d :: ds).map conv ++ t) =
      (if value base (d :: ds) ≥ 2 ^ 64 then 2 ^ 64 - 1 else value base (d :: ds), t) := by
  have hd : d < 16 := lt_of_lt_of_le (h d mem_cons_self) hb
  have hskip : skipSign ((d :: ds).map conv ++ t) = (false, (d :: ds).map conv ++ t) := skipSign_conv hd _
  have hscan := scanDigits_map hb ht h
  have hhex := hexed_map (b := b) hb ht h
  have hhead : ((d :: ds).map conv ++ t).getD 0 0 = conv d := rfl
  unfold strtoul
  dsimp only
  rw [hskip]
  dsimp only
  rw [hhex, hhead, if_neg Bool.false_ne_true, if_neg Bool.false_ne_true, hbase, hscan,
    if_neg (cons_ne_nil d ds), if_neg Bool.false_ne_true]

theorem strtoul_value {b d v : Nat} (hb : base ≤ 16) (ht : Stops t) {ds : List Nat} (h : ∀ x ∈ d :: ds, x < base)
    (hbase : (if b = 0 then if conv d = 48 then 8 else 10 else b) = base) (hv : value base (d :: ds) = v)
    (hlt : v < 2 ^ 64) : strtoul b ((d :: ds).map conv ++ t) = (v, t) := by
  rw [strtoul_map hb ht h hbase, hv, if_neg (Nat.not_le.2 hlt)]

theorem strtoul_hex_decimal (ht : Stops t) : (strtoul 16 (ifmt 10 n ++ t)).2 = t := by
  obtain ⟨d, ds, htext, hlt, -, -⟩ := exists_digits (show 1 < 10 by decide) n
  have hhex : ∀ x ∈ d :: ds, x < 16 := fun x hx => lt_trans (hlt x hx) (by decide)
  rw [htext, strtoul_map le_rfl ht hhex (if_neg (by decide))]

theorem strtoul_stops {c : UInt8} (hc : digitVal c = none) (hs : isspace c = false) (h1 : c ≠ 45) (h2 : c ≠ 43)
    (b : Nat) (t : Bytes) : strtoul b (c :: t) = (0, c :: t) := by
  have hdrop : (c :: t).dropWhile isspace = c :: t := by rw [dropWhile_cons, hs]; rfl
  have hskip : skipSign (c :: t) = (false, c :: t) := by
    rw [skipSign, hdrop, head?_cons, if_neg (fun h => h1 (some.inj h)),
      if_neg (fun h => h2 (some.inj h))]
  have hne : c ≠ 48 := by
    rintro rfl
    exact absurd hc (by decide)
  have hhex : hexed b (c :: t) = false := by
    rw [hexed, getD_cons_zero, decide_eq_false hne, Bool.and_false, Bool.false_and, Bool.false_and]
  unfold strtoul
  dsimp only
  rw [hskip]
  dsimp only
  rw [hhex, if_neg Bool.false_ne_true, if_neg Bool.false_ne_true, scanDigits_stops (stops_cons hc t), if_pos rfl]

theorem strtoul_ifmt {b : Nat} (h1 : 1 < b) (h16 : b ≤ 16) (hn : n < 2 ^ 64) (ht : Stops t) :
    strtoul b (ifmt b n ++ t) = (n, t) := by
  obtain ⟨d, ds, htext, hlt, hval, -⟩ := exists_digits h1 n
  rw [htext]
  exact strtoul_value h16 ht hlt (if_neg (by omega)) hval hn

theorem strtoul_decimal (hn : n < 2 ^ 64) (ht : Stops t) : strtoul 0 (ifmt 10 n ++ t) = (n, t) := by
  obtain ⟨d, ds, htext, hlt, hval, hzero⟩ := exists_digits (show 1 < 10 by decide) n
  rw [htext]
  by_cases hd : d = 0
  · obtain rfl := hzero hd
    subst hd
    have hone : ∀ x ∈ [0], x < 8 := by simp
    exact strtoul_value (by decide) ht hone rfl hval hn
  · have hne : ∀ d < 10, d ≠ 0 → conv d ≠ 48 := by decide
    refine strtoul_value (by decide) ht hlt ?_ hval hn
    rw [if_pos rfl, if_neg (hne d (hlt d mem_cons_self) hd)]

theorem atoi_ifmt (hn : n < 2 ^ 31) : atoi (ifmt 10 n) = n := by
  obtain ⟨d, ds, htext, hlt, hval, -⟩ := exists_digits (show 1 < 10 by decide) n
  have hskip : skipSign ((d :: ds).map conv) = (false, (d :: ds).map conv) :=
    skipSign_conv (lt_of_lt_of_le (hlt d mem_cons_self) (by decide)) _
  have hscan := scanDigits_map (by decide) stops_nil hlt
  rw [append_nil] at hscan
  have hmin : min (n : Int) (2 ^ 63 - 1) = n := min_eq_left (by norm_num; omega)
  rw [htext]
  unfold atoi
  rw [hskip]
  dsimp only
  rw [hscan, hval, if_neg Bool.false_ne_true, hmin, BitVec.toInt_ofInt]
  exact Int.bmod_eq_of_le (by omega) (by omega)

theorem ifmt_ne_nil : ifmt base n ≠ [] := by
  unfold ifmt
  split_ifs with hn
  · exact cons_ne_nil _ _
  · simpa [Nat.digits_eq_nil_iff_eq_zero] using hn

theorem ifmt_length_le {k : Nat} (hb : 1 < base) (hk : 0 < k) (hn : n < base ^ k) : (ifmt base n).length ≤ k := by
  unfold ifmt
  split_ifs
  · exact hk
  · rw [length_map, length_reverse]
    exact (Nat.digits_length_le_iff hb n).2 hn

section Append
variable {b : Nat} {s u : Bytes}

theorem skipSign_append (t : Bytes) (h : (skipSign s).2 ≠ []) :
    skipSign (s ++ t) = ((skipSign s).1, (skipSign s).2 ++ t) := by
  unfold skipSign at h ⊢
  dsimp only at h ⊢
  rw [dropWhile_append]
  rcases hd : s.dropWhile isspace with _ | ⟨c, r⟩
  · rw [hd] at h
    exact absurd rfl h
  · rw [isEmpty_cons, if_neg Bool.false_ne_true, cons_append, head?_cons, head?_cons]
    split_ifs <;> rfl

theorem digit_getD (ht : Stops t) : digit 16 (t.getD 0 0) = none := by
  rcases t with _ | ⟨c, t⟩
  · rfl
  · rw [getD_cons_zero, digit, ht c rfl]
    rfl

theorem hexed_append (hu : u ≠ []) (ht : Stops t) : hexed b (u ++ t) = hexed b u := by
  have hx : t.getD 0 0 ≠ 120 ∧ t.getD 0 0 ≠ 88 := by
    rcases t with _ | ⟨c, t⟩
    · exact ⟨by simp, by simp⟩
    · exact not_x (ht c rfl)
  have hd := digit_getD ht
  rcases u with _ | ⟨c, _ | ⟨x, _ | ⟨d, u⟩⟩⟩
  · exact absurd rfl hu
  · simp only [hexed, cons_append, nil_append, getD_cons_succ, getD_nil, decide_eq_false hx.1,
      decide_eq_false hx.2, Bool.or_false, Bool.and_false, Bool.false_and]
    simp
  · have hz : digit 16 0 = none := rfl
    simp only [hexed, cons_append, nil_append, getD_cons_succ, getD_nil, hd, hz]
    simp
  · rfl

theorem scanDigits_append (ht : Stops t) : ∀ {u : Bytes}, (scanDigits base u).2 = [] →
    scanDigits base (u ++ t) = ((scanDigits base u).1, t)
  | [], _ => scanDigits_stops ht
  | c :: u, h => by
    rw [scanDigits] at h
    rw [cons_append, scanDigits, scanDigits]
    rcases hd : digit base c with _ | d
    · rw [hd] at h
      cases h
    · rw [hd] at h
      rw [elim_some, elim_some, scanDigits_append ht h]

theorem scanDigits_hex (hb : base ≤ 16) : ∀ {u : Bytes}, (scanDigits base u).2 = [] →
    scanDigits 16 u = scanDigits base u
  | [], _ => rfl
  | c :: u, h => by
    rw [scanDigits] at h
    rw [scanDigits, scanDigits]
    rcases hd : digit base c with _ | d
    · rw [hd] at h
      cases h
    have h16 : digit 16 c = some d := by
      obtain ⟨hval, hlt⟩ := filter_eq_some_iff.1 hd
      rw [digit, hval]
      exact filter_eq_some_iff.2 ⟨rfl, decide_eq_true (lt_of_lt_of_le (of_decide_eq_true hlt) hb)⟩
    rw [hd] at h
    rw [h16, elim_some, elim_some, scanDigits_hex hb h]

/-- The base of the digits, and where they start. -/
def radix (b : Nat) (u : Bytes) : Nat :=
  if b = 0 then if hexed b u then 16 else if u.getD 0 0 = 48 then 8 else 10 else b

def digitText (b : Nat) (u : Bytes) : Bytes := if hexed b u then u.drop 2 else u

theorem strtoul_eq (b : Nat) (s : Bytes) : strtoul b s =
    let r := scanDigits (radix b (skipSign s).2) (digitText b (skipSign s).2)
    if r.1 = [] then (0, s)
    else
      let v := value (radix b (skipSign s).2) r.1
      (if v ≥ 2 ^ 64 then 2 ^ 64 - 1 else if (skipSign s).1 then (2 ^ 64 - v) % 2 ^ 64 else v, r.2) := rfl

theorem strtoul_whole {v : Nat} (hs : s ≠ []) (h : strtoul b s = (v, [])) :
    (skipSign s).2 ≠ [] ∧ (scanDigits (radix b (skipSign s).2) (digitText b (skipSign s).2)).1 ≠ [] ∧
      (scanDigits (radix b (skipSign s).2) (digitText b (skipSign s).2)).2 = [] := by
  rw [strtoul_eq] at h
  dsimp only at h
  split_ifs at h with hnil
  · exact absurd (congrArg Prod.snd h) hs
  all_goals
    refine ⟨fun hu => hnil ?_, hnil, congrArg Prod.snd h⟩
    rw [hu]
    unfold digitText
    rw [drop_nil, ite_self]
    rfl

theorem digitText_append (hu : u ≠ []) (ht : Stops t) : digitText b (u ++ t) = digitText b u ++ t := by
  unfold digitText
  rw [hexed_append hu ht]
  split
  case isTrue hx =>
    have hlen : 2 ≤ u.length := by
      rcases u with _ | ⟨c, _ | ⟨x, u⟩⟩
      · exact absurd rfl hu
      · simp [hexed] at hx
      · simp
    exact drop_append_of_le_length hlen
  case isFalse => rfl

theorem radix_append (hu : u ≠ []) (ht : Stops t) : radix b (u ++ t) = radix b u := by
  obtain ⟨c, r, rfl⟩ := exists_cons_of_ne_nil hu
  unfold radix
  rw [hexed_append hu ht]
  rfl

theorem strtoul_append {v : Nat} (hs : s ≠ []) (h : strtoul b s = (v, [])) (ht : Stops t) :
    strtoul b (s ++ t) = (v, t) := by
  obtain ⟨hu, hne, hend⟩ := strtoul_whole hs h
  rw [strtoul_eq] at h ⊢
  dsimp only at h ⊢
  rw [skipSign_append t hu]
  dsimp only
  rw [radix_append hu ht, digitText_append hu ht, scanDigits_append ht hend, if_neg hne]
  rw [if_neg hne, hend] at h
  exact congrArg (fun r => (r.1, t)) h

theorem strtoul_hex_end {v : Nat} (hs : s ≠ []) (h : strtoul 0 s = (v, [])) (ht : Stops t) :
    (strtoul 16 (s ++ t)).2 = t := by
  obtain ⟨hu, hne, hend⟩ := strtoul_whole hs h
  have hbase : radix 0 (skipSign s).2 ≤ 16 := by
    unfold radix
    split_ifs <;> decide
  have htext : digitText 16 (skipSign s).2 = digitText 0 (skipSign s).2 := rfl
  have hradix : radix 16 (skipSign s).2 = 16 := rfl
  have hscan := scanDigits_hex hbase hend
  rw [← htext] at hne hend hscan
  rw [strtoul_eq]
  dsimp only
  rw [skipSign_append t hu]
  dsimp only
  rw [radix_append hu ht, hradix, digitText_append hu ht, scanDigits_append ht (hscan ▸ hend), hscan, if_neg hne]

end Append

end Node9.Numerals
