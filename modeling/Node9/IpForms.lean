import Node9.IpText

/-!
# What IP addresses look like

A version 4 address is one to four numbers with dots between them, of which the last stands for what its class leaves
open; a version 6 address is eight groups of hexadecimal digits, of which the last two may be a version 4 address, and
`::` stands for one or more groups of zeros. `parseip` reads each of them (`parseip_address`).
-/

namespace Node9.IpForms
open Buf Numerals IpText List Option

/-- All of the text is a number as C writes it, without blanks and sign. -/
structure Number (t : Bytes) (n : Nat) : Prop where
  ne_nil : t ≠ []
  chars : ∀ c ∈ t, (digitVal c).isSome = true
  value : strtoul 0 t = (n, [])

inductive Dotted : Bytes → List Nat → Prop
  | last {w : Bytes} {n : Nat} : Number w n → n < 256 → Dotted w [n]
  | dot {w t : Bytes} {n : Nat} {ns : List Nat} : Number w n → n < 256 → Dotted t ns → Dotted (w ++ 46 :: t) (n :: ns)

def bytesOfNats (ns : List Nat) : Bytes := ns.map UInt8.ofNat

/-- The network is one byte in class A, two in class B and three in class C. -/
def classful : List Nat → Bytes
  | [a] => bytesOfNats [a, 0, 0, 0]
  | [a, b] => bytesOfNats (if a < 128 then [a, 0, 0, b] else [a, b, 0, 0])
  | [a, b, c] => bytesOfNats (if a < 128 then [a, 0, b, c] else if a < 192 then [a, b, 0, c] else [a, b, c, 0])
  | ns => bytesOfNats ns

/-- What stands behind `::`, or is the whole text. -/
inductive Rest : Bytes → Bytes → Prop
  | nil : Rest [] []
  | groups {k : Nat} {t b : Bytes} : Groups k t b → Rest t b
  | quad {t : Bytes} {ns : List Nat} : Dotted t ns → ns.length = 4 → Rest t (bytesOfNats ns)
  | both {k : Nat} {s b t : Bytes} {ns : List Nat} : Groups k s b → Dotted t ns → ns.length = 4 →
    Rest (s ++ colon :: t) (b ++ bytesOfNats ns)

/-- What stands in front of `::`. -/
inductive Front : Bytes → Bytes → Prop
  | nil : Front [] []
  | groups {k : Nat} {t b : Bytes} : Groups k t b → Front t b

inductive Address : Bytes → Bytes → Prop
  | v4 {t : Bytes} {ns : List Nat} (h : Dotted t ns) (hns : ns.length ≤ 4) : Address t <| v4prefix ++ classful ns
  | v6 {t b : Bytes} : Rest t b → b.length = 16 → Address t b
  | elided {s a t b : Bytes} : Front s a → Rest t b → a.length + b.length ≤ 14 →
    Address (s ++ colon :: colon :: t) (a ++ replicate (16 - (a.length + b.length)) 0 ++ b)

/-! ### Numbers with dots -/

section V4
variable {w t L : Bytes} {n off i z fuel : Nat} {ns : List Nat}

theorem Number.read (h : Number w n) (ht : Stops t) : strtoul 0 (w ++ t) = (n, t) := strtoul_append h.ne_nil h.value ht

theorem Dotted.ne_nil (h : Dotted t ns) : t ≠ [] := by
  cases h with
  | last hw => exact hw.ne_nil
  | dot hw => exact append_ne_nil_of_left_ne_nil hw.ne_nil _

theorem v4Loop_nil (off fuel i : Nat) (ip : Bytes) : v4Loop off fuel i ip [] = some (ip, i, []) := by
  rcases fuel with _ | fuel
  · rfl
  · rw [v4Loop_succ, if_pos rfl]

theorem poke_zeros (b : UInt8) (hz : 0 < z) :
    IpText.poke (L ++ replicate z 0) L.length b = some (L ++ [b] ++ replicate (z - 1) 0) := by
  obtain ⟨z, rfl⟩ := Nat.exists_eq_succ_of_ne_zero hz.ne'
  have hlt : L.length < (L ++ replicate (z + 1) (0 : UInt8)).length := by
    rw [length_append, length_replicate]
    omega
  rw [IpText.poke, if_pos hlt, set_append_right _ _ le_rfl, tsub_self, replicate_succ, append_assoc]
  rfl

theorem v4Loop_dotted (h : Dotted t ns) : ∀ {fuel i z : Nat} {L : Bytes}, ns.length ≤ fuel → ns.length ≤ z →
    off + i = L.length → v4Loop off fuel i (L ++ replicate z 0) t =
      some (L ++ bytesOfNats ns ++ replicate (z - ns.length) 0, i + ns.length, []) := by
  induction h with
  | @last w n hw hn =>
    intro fuel i z L hf hz hi
    obtain ⟨fuel, rfl⟩ := Nat.exists_eq_succ_of_ne_zero (Nat.pos_iff_ne_zero.1 hf)
    rw [v4Loop_succ, if_neg hw.ne_nil, hw.value]
    dsimp only
    rw [hi, poke_zeros _ hz, bind_some, head?_nil, if_neg (by simp), v4Loop_nil]
    rfl
  | @dot w t n ns hw hn h ih =>
    intro fuel i z L hf hz hi
    rw [length_cons] at hf hz
    obtain ⟨fuel, rfl⟩ := Nat.exists_eq_succ_of_ne_zero (show fuel ≠ 0 by omega)
    have hlen : (L ++ [UInt8.ofNat n]).length = L.length + 1 := length_append
    rw [v4Loop_succ, if_neg (append_ne_nil_of_left_ne_nil hw.ne_nil _), hw.read (stops_cons digitVal_dot t)]
    dsimp only
    rw [hi, poke_zeros _ (by omega), bind_some, head?_cons, if_pos rfl, tail_cons,
      ih (by omega) (by omega) (by rw [hlen]; omega), length_cons]
    simp only [bytesOfNats, map_cons, append_assoc, cons_append, nil_append]
    rw [show z - 1 - ns.length = z - (ns.length + 1) by omega, show i + 1 + ns.length = i + (ns.length + 1) by omega]

theorem v4parseip_quad {done : Bytes} (h : Dotted t ns) (hns : ns.length = 4) (hlen : done.length + 4 ≤ 16) :
    v4parseip done.length (done ++ replicate (16 - done.length) 0) t =
      some (done ++ bytesOfNats ns ++ replicate (16 - done.length - 4) 0, []) := by
  have hloop : v4Loop done.length 4 0 (done ++ replicate (16 - done.length) 0) t = _ :=
    v4Loop_dotted h hns.le (by omega) rfl
  unfold v4parseip
  rw [hloop, bind_some, hns]
  dsimp only
  rw [if_neg fun h => absurd h.2 (by decide), if_neg fun h => absurd h.2 (by decide),
    if_neg fun h => absurd h.2 (by decide)]

theorem Dotted.lt (h : Dotted t ns) : ∀ n ∈ ns, n < 256 := by
  induction h with
  | last hw hn => exact forall_mem_singleton.2 hn
  | dot hw hn h ih => exact forall_mem_cons.2 ⟨hn, ih⟩

theorem class_eq (h : n < 256) : (UInt8.ofNat n).toNat >>> 6 = n / 64 := by
  rw [UInt8.toNat_ofNat', Nat.mod_eq_of_lt h, Nat.shiftRight_eq_div_pow]

theorem v4parseip_dotted (h : Dotted t ns) (hns : ns.length ≤ 4) :
    v4parseip 0 (replicate 16 0) t = some (classful ns ++ replicate 12 0, []) := by
  have hloop : v4Loop 0 4 0 ([] ++ replicate 16 0) t = _ := v4Loop_dotted h hns (by omega) rfl
  have hlt := h.lt
  rw [nil_append] at hloop
  unfold v4parseip
  rw [hloop, bind_some]
  dsimp only
  rcases ns with _ | ⟨a, _ | ⟨b, _ | ⟨c, _ | ⟨d, _ | ⟨e, ns⟩⟩⟩⟩⟩
  · cases h
  · rw [if_neg fun h => absurd h.2 (by simp), if_neg fun h => absurd h.2 (by simp),
      if_neg fun h => absurd h.2 (by simp)]
    rfl
  · have hcls := class_eq (hlt a mem_cons_self)
    rw [if_neg fun h => absurd h.2 (by simp)]
    by_cases hA : a < 128
    · have hone : (UInt8.ofNat a).toNat >>> 6 ≤ 1 := by omega
      rw [if_pos ⟨hone, rfl⟩]
      simp only [classful, if_pos hA]
      rfl
    · have hone : ¬ (UInt8.ofNat a).toNat >>> 6 ≤ 1 := by omega
      rw [if_neg fun h => hone h.1, if_neg fun h => absurd h.2 (by simp)]
      simp only [classful, if_neg hA]
      rfl
  · have hcls := class_eq (hlt a mem_cons_self)
    by_cases hA : a < 128
    · have hone : (UInt8.ofNat a).toNat >>> 6 ≤ 1 := by omega
      rw [if_pos ⟨hone, rfl⟩]
      simp only [classful, if_pos hA]
      rfl
    have hone : ¬ (UInt8.ofNat a).toNat >>> 6 ≤ 1 := by omega
    rw [if_neg fun h => hone h.1, if_neg fun h => hone h.1]
    by_cases hB : a < 192
    · have htwo : (UInt8.ofNat a).toNat >>> 6 = 2 := by omega
      rw [if_pos ⟨htwo, rfl⟩]
      simp only [classful, if_neg hA, if_pos hB]
      rfl
    · have htwo : ¬ (UInt8.ofNat a).toNat >>> 6 = 2 := by omega
      rw [if_neg fun h => htwo h.1]
      simp only [classful, if_neg hA, if_neg hB]
      rfl
  · rw [if_neg fun h => absurd h.2 (by simp), if_neg fun h => absurd h.2 (by simp),
      if_neg fun h => absurd h.2 (by simp)]
    rfl
  · simp only [length_cons] at hns
    omega

theorem strtoul_dotted (h : Dotted t ns) :
    (strtoul 16 t).2.head? = some 46 ∨ (strtoul 16 t).2 = [] ∧ ns.length = 1 := by
  cases h with
  | last hw =>
    have hend := strtoul_hex_end hw.ne_nil hw.value stops_nil
    rw [append_nil] at hend
    exact .inr ⟨hend, rfl⟩
  | dot hw hn h =>
    rw [strtoul_hex_end hw.ne_nil hw.value (stops_cons digitVal_dot _)]
    exact .inl rfl

theorem classful_four (hne : ns ≠ []) (hns : ns.length ≤ 4) : ∃ a b c d, classful ns = [a, b, c, d] := by
  rcases ns with _ | ⟨a, _ | ⟨b, _ | ⟨c, _ | ⟨d, _ | ⟨e, ns⟩⟩⟩⟩⟩
  · exact absurd rfl hne
  · exact ⟨_, _, _, _, rfl⟩
  · by_cases hA : a < 128
    · exact ⟨_, _, _, _, congrArg bytesOfNats (if_pos hA)⟩
    · exact ⟨_, _, _, _, congrArg bytesOfNats (if_neg hA)⟩
  · by_cases hA : a < 128
    · exact ⟨_, _, _, _, congrArg bytesOfNats (if_pos hA)⟩
    · by_cases hB : a < 192
      · exact ⟨_, _, _, _, congrArg bytesOfNats ((if_neg hA).trans (if_pos hB))⟩
      · exact ⟨_, _, _, _, congrArg bytesOfNats ((if_neg hA).trans (if_neg hB))⟩
  · exact ⟨_, _, _, _, rfl⟩
  · simp only [length_cons] at hns
    omega

theorem parseip_v4 (h : Dotted t ns) (hns : ns.length ≤ 4) :
    (parseip t).map Prod.fst = (some <| v4prefix ++ classful ns) := by
  have hloop : parseLoop (7 + 1) t (st [] 0 true) = some ⟨4, classful ns ++ replicate 12 0, 0, true⟩ := by
    rw [parseLoop, if_pos ⟨by decide, h.ne_nil⟩]
    dsimp only
    rw [if_pos ((strtoul_dotted h).imp_right fun hend => ⟨hend.1, rfl⟩)]
    exact congrArg (Option.map _) (v4parseip_dotted h hns)
  have hne : ns ≠ [] := by
    rintro rfl
    cases h
  obtain ⟨a, b, c, d, hq⟩ := classful_four hne hns
  unfold parseip
  rw [st_nil, hloop, hq]
  rfl

end V4

section V6
variable {s a t b done : Bytes} {n e fuel k : Nat} {ns : List Nat}

theorem Dotted.head (h : Dotted t ns) : t.head? ≠ some colon := by
  have hnot : ¬ (digitVal colon).isSome = true := by decide
  have hfirst : ∀ {w r : Bytes} {n : Nat}, Number w n → (w ++ r).head? ≠ some colon := by
    intro w r n hw
    obtain ⟨c, w, rfl⟩ := exists_cons_of_ne_nil hw.ne_nil
    intro hc
    cases hc
    exact hnot (hw.chars _ mem_cons_self)
  cases h with
  | @last w n hw =>
    have hw' := hfirst (r := []) hw
    rwa [append_nil] at hw'
  | dot hw => exact hfirst hw

theorem parse_quad (h : Dotted t ns) (hns : ns.length = 4) (hlen : done.length + 4 ≤ 16) :
    parseLoop (fuel + 1) t (st done e false) = some (st (done ++ bytesOfNats ns) e false) := by
  have hfour : (bytesOfNats ns).length = 4 := (length_map _).trans hns
  have hdot : (strtoul 16 t).2.head? = some 46 := by
    rcases strtoul_dotted h with hdot | ⟨-, hone⟩
    · exact hdot
    · omega
  have hgo : (st done e false).i < 16 ∧ t ≠ [] := ⟨show done.length < 16 by omega, h.ne_nil⟩
  have hput : v4parseip (st done e false).i (st done e false).ip t = _ := v4parseip_quad h hns hlen
  have hst : st (done ++ bytesOfNats ns) e false =
      ⟨done.length + 4, done ++ bytesOfNats ns ++ replicate (16 - done.length - 4) 0, e, false⟩ := by
    unfold st
    rw [length_append, hfour, show 16 - (done.length + 4) = 16 - done.length - 4 by omega]
  rw [parseLoop, if_pos hgo]
  dsimp only
  rw [if_pos (.inl hdot), hput, hst]
  rfl

theorem Rest.parse (h : Rest t b) (hdone : done ≠ []) (hlen : done.length + b.length ≤ 16) (hf : b.length ≤ 2 * fuel) :
    parseLoop fuel t (st done e false) = some (st (done ++ b) e false) := by
  cases h with
  | nil =>
    rw [parseLoop_nil, append_nil]
  | @groups k t b hg =>
    have hk := hg.length
    obtain ⟨n, rfl⟩ := Nat.exists_eq_add_of_le' (show k ≤ fuel by omega)
    exact hg.parse_after done hdone hlen
  | @quad t ns hd hns =>
    have hfour : (bytesOfNats ns).length = 4 := (length_map _).trans hns
    obtain ⟨n, rfl⟩ := Nat.exists_eq_add_of_le' (show 1 ≤ fuel by omega)
    exact parse_quad hd hns (by omega)
  | @both k s b t ns hg hd hns =>
    have hfour : (bytesOfNats ns).length = 4 := (length_map _).trans hns
    have hk := hg.length
    rw [length_append] at hlen hf
    obtain ⟨n, rfl⟩ := Nat.exists_eq_add_of_le' (show k + 1 ≤ fuel by omega)
    rw [show n + (k + 1) = n + 1 + k by omega, hg.parse_then done e false (by omega) hd.head,
      parse_quad hd hns (by rw [length_append]; omega), append_assoc]

theorem parseip_rest (h : Rest t b) (hb : b.length = 16) : parseip t = some (b, 6) := by
  have hfirst : parseLoop 8 t (st [] 0 true) = some (st b 0 false) := by
    cases h with
    | nil => cases hb
    | groups hg =>
      cases hg with
      | one hw => cases hb
      | @cons w t b g k hw hg =>
        have hall : (pair g ++ b).length = 2 + b.length := length_append
        have hhead := hg.head []
        rw [append_nil] at hhead
        rw [parse_colon hw (by decide) hhead 7]
        exact Rest.parse (.groups hg) (cons_ne_nil _ _) (by show 2 + b.length ≤ 16; omega) (by omega)
    | quad hd hns =>
      rw [bytesOfNats, length_map, hns] at hb
      cases hb
    | @both k s b t ns hg hd hns =>
      have hfour : (bytesOfNats ns).length = 4 := (length_map _).trans hns
      have hk := hg.length
      rw [length_append, hfour] at hb
      obtain rfl : k = 6 := by omega
      have hthen := hg.parse_then (n := 2) [] 0 true (by rw [length_nil]; omega) hd.head
      exact hthen.trans (parse_quad hd hns (by rw [nil_append]; omega))
  have hspread : spread (st ([] ++ b) ([] : Bytes).length false) = _ := spread_st (by rw [length_nil]; omega)
  rw [parseip_v6 hfirst rfl]
  exact congrArg (fun x => some (x, 6)) (hspread.trans (by simp [hb]))

theorem parseip_elided (hs : Front s a) (h : Rest t b) (hlen : a.length + b.length ≤ 14) :
    parseip (s ++ colon :: colon :: t) = some (a ++ replicate (16 - (a.length + b.length)) 0 ++ b, 6) := by
  cases hs with
  | nil =>
    rw [length_nil, zero_add] at hlen
    have hrest : parseLoop 7 t (st [0, 0] 2 false) = some (st ([0, 0] ++ b) 2 false) :=
      h.parse (cons_ne_nil _ _) (by show 2 + b.length ≤ 16; omega) (by omega)
    have hspread : spread (st ([0, 0] ++ b) ([0, 0] : Bytes).length false) = _ :=
      spread_st (by show 2 + b.length ≤ 16; omega)
    obtain ⟨z, hz⟩ : ∃ z, 16 - b.length = z + 2 := ⟨14 - b.length, by omega⟩
    rw [nil_append, parseip_v6 ((parse_first t 7).trans hrest) rfl]
    refine congrArg (fun x => some (x, 6)) (hspread.trans ?_)
    rw [length_nil, zero_add, hz, nil_append, replicate_succ, replicate_succ]
    show [0, 0] ++ replicate (16 - (2 + b.length)) 0 ++ b = _
    rw [show 16 - (2 + b.length) = z by omega]
    rfl
  | @groups k s a hg =>
    have hk := hg.length
    have hbefore : parseLoop (8 - k + k) (s ++ colon :: colon :: t) (st [] 0 true) = _ :=
      hg.parse_before [] 0 true (by rw [length_nil]; omega)
    have hne : a ≠ [] := by
      cases hg with
      | one => exact cons_ne_nil _ _
      | cons => exact cons_ne_nil _ _
    have hrest : parseLoop (8 - k) t (st a a.length false) = some (st (a ++ b) a.length false) :=
      h.parse hne (by omega) (by omega)
    have hspread : spread (st (a ++ b) a.length false) = _ := spread_st (by omega)
    rw [Nat.sub_add_cancel (by omega)] at hbefore
    rw [parseip_v6 (hbefore.trans hrest) rfl, hspread]

theorem parseip_address (h : Address t a) : (parseip t).map Prod.fst = some a := by
  cases h with
  | v4 hd hns => exact parseip_v4 hd hns
  | v6 hr hb =>
    rw [parseip_rest hr hb]
    rfl
  | elided hs hr hlen =>
    rw [parseip_elided hs hr hlen]
    rfl

end V6

/-! ### What addresses are made of -/

def Plain (c : UInt8) : Prop := (digitVal c).isSome = true ∨ c = 46 ∨ c = colon

section Chars
variable {s a t b : Bytes} {n k : Nat} {ns : List Nat}

theorem Number.plain (h : Number t n) : ∀ c ∈ t, Plain c := fun c hc => .inl (h.chars c hc)

theorem Dotted.plain (h : Dotted t ns) : ∀ c ∈ t, Plain c := by
  induction h with
  | last hw => exact hw.plain
  | dot hw hn h ih =>
    intro c hc
    rcases mem_append.1 hc with hc | hc
    · exact hw.plain c hc
    · rcases mem_cons.1 hc with rfl | hc
      · exact .inr (.inl rfl)
      · exact ih c hc

theorem plain_colon : Plain colon := .inr (.inr rfl)

theorem hextet_plain {w : Bytes} {g : Nat} (hw : Hextet w g) : ∀ c ∈ w, Plain c := by
  intro c hc
  left
  obtain ⟨d, hd⟩ := isSome_iff_exists.1 (hw.digits c hc)
  rw [(filter_eq_some_iff.1 hd).1]
  rfl

theorem groups_plain (h : Groups k t b) : ∀ c ∈ t, Plain c := by
  induction h with
  | one hw => exact hextet_plain hw
  | cons hw h ih =>
    intro c hc
    rcases mem_append.1 hc with hc | hc
    · exact hextet_plain hw c hc
    · rcases mem_cons.1 hc with rfl | hc
      · exact plain_colon
      · exact ih c hc

theorem Rest.plain (h : Rest t b) : ∀ c ∈ t, Plain c := by
  cases h with
  | nil => exact fun c hc => absurd hc not_mem_nil
  | groups hg => exact groups_plain hg
  | quad hd => exact hd.plain
  | both hg hd =>
    intro c hc
    rcases mem_append.1 hc with hc | hc
    · exact groups_plain hg c hc
    · rcases mem_cons.1 hc with rfl | hc
      · exact plain_colon
      · exact hd.plain c hc

theorem Address.plain (h : Address t a) : ∀ c ∈ t, Plain c := by
  cases h with
  | v4 hd => exact hd.plain
  | v6 hr => exact hr.plain
  | elided hs hr =>
    intro c hc
    rcases mem_append.1 hc with hc | hc
    · cases hs with
      | nil => exact absurd hc not_mem_nil
      | groups hg => exact groups_plain hg c hc
    · rcases mem_cons.1 hc with rfl | hc
      · exact plain_colon
      · rcases mem_cons.1 hc with rfl | hc
        · exact plain_colon
        · exact hr.plain c hc

end Chars

end Node9.IpForms
