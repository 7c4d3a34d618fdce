import Node9.Lib.Buf

/-!
# The grammar of JSON (RFC 8259)

`Phrase k loose s`: the bytes `s` are a phrase of kind `k`. With `loose = false` this is the grammar of the RFC,
over bytes: what is beyond ASCII is a byte from 0x80 on, and its encoding is not looked at. A phrase is loose if
somewhere in it a number has a leading zero or a point without digits, or a string has a raw control character.

`scan` is a recogniser (`phrase_iff_scan`), so nothing is a text both of the RFC and loosely (`Loose.not_text`).
-/

namespace Rfc8259
open Buf List
open Option hiding all_eq_true

abbrev space : UInt8 := 0x20
abbrev tab : UInt8 := 0x09
abbrev lineFeed : UInt8 := 0x0a
abbrev carriageReturn : UInt8 := 0x0d
abbrev beginArray : UInt8 := 0x5b
abbrev beginObject : UInt8 := 0x7b
abbrev endArray : UInt8 := 0x5d
abbrev endObject : UInt8 := 0x7d
abbrev nameSeparator : UInt8 := 0x3a
abbrev valueSeparator : UInt8 := 0x2c
abbrev quote : UInt8 := 0x22
abbrev backslash : UInt8 := 0x5c
abbrev minus : UInt8 := 0x2d
abbrev plus : UInt8 := 0x2b
abbrev point : UInt8 := 0x2e
abbrev zero : UInt8 := 0x30
abbrev letterU : UInt8 := 0x75

def nullLit : Bytes := [0x6e, 0x75, 0x6c, 0x6c]
def trueLit : Bytes := [0x74, 0x72, 0x75, 0x65]
def falseLit : Bytes := [0x66, 0x61, 0x6c, 0x73, 0x65]

def isWs (b : UInt8) : Bool := b == space || b == tab || b == lineFeed || b == carriageReturn
def isDigit (b : UInt8) : Bool := 0x30 ≤ b && b ≤ 0x39
def isHex (b : UInt8) : Bool := isDigit b || (0x41 ≤ b && b ≤ 0x46) || (0x61 ≤ b && b ≤ 0x66)
def isE (b : UInt8) : Bool := b == 0x65 || b == 0x45
def isSign (b : UInt8) : Bool := b == plus || b == minus
def isControl (b : UInt8) : Bool := b < 0x20

/-- The second bytes of the escapes of two. -/
def isEscape (b : UInt8) : Bool :=
  b == quote || b == backslash || b == 0x2f || b == 0x62 || b == 0x66 || b == 0x6e || b == 0x72 || b == 0x74

def Ws (s : Bytes) : Prop := s.all isWs

def Digits (s : Bytes) : Prop := s ≠ [] ∧ s.all isDigit

inductive IntPart : Bool → Bytes → Prop
  | zero : IntPart false [zero]
  | digits {d : UInt8} {s : Bytes} : isDigit d → d ≠ Rfc8259.zero → s.all isDigit → IntPart false (d :: s)
  | zeros {s : Bytes} : Digits s → IntPart true (Rfc8259.zero :: s)

inductive FracPart : Bool → Bytes → Prop
  | none : FracPart false []
  | digits {s : Bytes} : Digits s → FracPart false (point :: s)
  | bare : FracPart true [point]

inductive ExpPart : Bytes → Prop
  | none : ExpPart []
  | exp {e : UInt8} {sign s : Bytes} : isE e → sign = [] ∨ (∃ b, sign = [b] ∧ isSign b) → Digits s →
      ExpPart (e :: sign ++ s)

def Number (loose : Bool) (s : Bytes) : Prop :=
  ∃ sign int frac exp o o', (sign = [] ∨ sign = [minus]) ∧ IntPart o int ∧ FracPart o' frac ∧ ExpPart exp ∧
    loose = (o || o') ∧ s = sign ++ int ++ frac ++ exp

inductive Chars : Bool → Bytes → Prop
  | nil : Chars false []
  | char {b : UInt8} {o : Bool} {s : Bytes} : b ≠ quote → b ≠ backslash → Chars o s → Chars (isControl b || o) (b :: s)
  | escape {b : UInt8} {o : Bool} {s : Bytes} : isEscape b → Chars o s → Chars o (backslash :: b :: s)
  | unicode {a b c d : UInt8} {o : Bool} {s : Bytes} : isHex a → isHex b → isHex c → isHex d → Chars o s →
      Chars o (backslash :: letterU :: a :: b :: c :: d :: s)

inductive Kind
  | value
  /-- a value and the whitespace around it -/
  | element
  | elements
  | member
  | members

inductive Phrase : Kind → Bool → Bytes → Prop
  | lit {l : Bytes} : l = nullLit ∨ l = trueLit ∨ l = falseLit → Phrase .value false l
  | number {o : Bool} {s : Bytes} : Number o s → Phrase .value o s
  | string {o : Bool} {s : Bytes} : Chars o s → Phrase .value o (quote :: s ++ [quote])
  | emptyArray {w : Bytes} : Ws w → Phrase .value false (beginArray :: w ++ [endArray])
  | array {o : Bool} {s : Bytes} : Phrase .elements o s → Phrase .value o (beginArray :: s ++ [endArray])
  | emptyObject {w : Bytes} : Ws w → Phrase .value false (beginObject :: w ++ [endObject])
  | object {o : Bool} {s : Bytes} : Phrase .members o s → Phrase .value o (beginObject :: s ++ [endObject])
  | element {o : Bool} {w s w' : Bytes} : Ws w → Phrase .value o s → Ws w' → Phrase .element o (w ++ s ++ w')
  | one {o : Bool} {s : Bytes} : Phrase .element o s → Phrase .elements o s
  | more {o o' : Bool} {s t : Bytes} : Phrase .element o s → Phrase .elements o' t →
      Phrase .elements (o || o') (s ++ valueSeparator :: t)
  | member {o o' : Bool} {w k w' s : Bytes} : Ws w → Chars o k → Ws w' → Phrase .element o' s →
      Phrase .member (o || o') (w ++ quote :: k ++ quote :: w' ++ nameSeparator :: s)
  | oneMember {o : Bool} {s : Bytes} : Phrase .member o s → Phrase .members o s
  | moreMembers {o o' : Bool} {s t : Bytes} : Phrase .member o s → Phrase .members o' t →
      Phrase .members (o || o') (s ++ valueSeparator :: t)

def Text (s : Bytes) : Prop := Phrase .element false s

/-- A text but for leading zeros, points without digits and raw control characters, with at least one of these. -/
def Loose (s : Bytes) : Prop := Phrase .element true s

/-- Whether what was read is loose, and what is left. -/
abbrev Scan := Option (Bool × Bytes)

def skipWs (s : Bytes) : Bytes := s.dropWhile isWs

def skipSign (s : Bytes) : Bytes :=
  match s with
  | [] => []
  | b :: t => if isSign b then t else s

def scanFrac (s : Bytes) : Bool × Bytes :=
  match s with
  | [] => (false, [])
  | b :: t => if b = point then ((t.takeWhile isDigit).isEmpty, t.dropWhile isDigit) else (false, s)

def scanExp (s : Bytes) : Option Bytes :=
  match s with
  | [] => some []
  | b :: t =>
    if isE b then
      if ((skipSign t).takeWhile isDigit).isEmpty then none else some ((skipSign t).dropWhile isDigit)
    else if isSign b then none
    else some s

def skipMinus (s : Bytes) : Bytes :=
  match s with
  | [] => []
  | b :: t => if b = minus then t else s

def looseInt (s : Bytes) : Bool := s.head? == some zero && s.length != 1

def scanNumber (s : Bytes) : Scan :=
  let s := skipMinus s
  if (s.takeWhile isDigit).isEmpty then none
  else
    let f := scanFrac (s.dropWhile isDigit)
    (scanExp f.2).map fun r => (looseInt (s.takeWhile isDigit) || f.1, r)

def scanChars : Bytes → Scan
  | [] => none
  | b :: s =>
    if b = quote then some (false, s)
    else if b = backslash then
      match s with
      | [] => none
      | e :: s =>
        if isEscape e then scanChars s
        else if e = letterU then
          match s with
          | x :: y :: z :: w :: s => if isHex x && isHex y && isHex z && isHex w then scanChars s else none
          | _ => none
        else none
    else (scanChars s).map fun r => (isControl b || r.1, r.2)

def scanElements (value : Bytes → Scan) : Nat → Bytes → Scan
  | 0, _ => none
  | n + 1, s => do
    let (o, s) ← value s
    match skipWs s with
    | [] => none
    | b :: s =>
      if b = endArray then some (o, s)
      else if b = valueSeparator then (scanElements value n s).map fun r => (o || r.1, r.2)
      else none

def scanName (s : Bytes) : Scan :=
  match skipWs s with
  | [] => none
  | b :: s =>
    if b = quote then do
      let (o, s) ← scanChars s
      match skipWs s with
      | [] => none
      | b :: s => if b = nameSeparator then some (o, s) else none
    else none

def scanMembers (value : Bytes → Scan) : Nat → Bytes → Scan
  | 0, _ => none
  | n + 1, s => do
    let (o, s) ← scanName s
    let (o', s) ← value s
    match skipWs s with
    | [] => none
    | b :: s =>
      if b = endObject then some (o || o', s)
      else if b = valueSeparator then (scanMembers value n s).map fun r => ((o || o') || r.1, r.2)
      else none

def scanLit (lit s : Bytes) : Scan := if s.take lit.length = lit then some (false, s.drop lit.length) else none

/-- A value and the whitespace before it; `n` bounds the nesting. -/
def scanValue : Nat → Bytes → Scan
  | 0, _ => none
  | n + 1, s =>
    match skipWs s with
    | [] => none
    | b :: s =>
      if b = quote then scanChars s
      else if b = beginArray then
        match skipWs s with
        | [] => none
        | c :: t => if c = endArray then some (false, t) else scanElements (scanValue n) (s.length + 1) s
      else if b = beginObject then
        match skipWs s with
        | [] => none
        | c :: t => if c = endObject then some (false, t) else scanMembers (scanValue n) (s.length + 1) s
      else if b = 0x74 then scanLit trueLit (b :: s)
      else if b = 0x66 then scanLit falseLit (b :: s)
      else if b = 0x6e then scanLit nullLit (b :: s)
      else if b = minus || isDigit b then scanNumber (b :: s)
      else none

def scan (s : Bytes) : Option Bool :=
  (scanValue (s.length + 1) s).bind fun r => if skipWs r.2 = [] then some r.1 else none

/-! ### Whitespace and runs of digits -/

/-- The first byte, if there is one, is not a `p`. -/
def Off (p : UInt8 → Bool) (s : Bytes) : Prop := ∀ b, s.head? = some b → p b = false

def isNum (b : UInt8) : Bool := isDigit b || isE b || isSign b || b == point

section Runs
variable {p q : UInt8 → Bool} {b : UInt8} {s t w : Bytes}

theorem off_nil : Off p [] := fun _ h => by cases h

theorem off_cons (h : p b = false) : Off p (b :: s) := fun _ hb => by
  cases hb
  exact h

theorem Off.mono (h : Off q s) (hpq : ∀ b, p b = true → q b = true) : Off p s := fun b hb => by
  have := h b hb
  by_contra hp
  rw [hpq b (by simpa using hp)] at this
  cases this

theorem takeWhile_run (hs : s.all p) (ht : Off p t) : (s ++ t).takeWhile p = s := by
  rw [takeWhile_append_of_pos (all_eq_true.1 hs)]
  cases t with
  | nil => exact append_nil s
  | cons b t => rw [takeWhile_cons_of_neg (by simp [ht b rfl]), append_nil]

theorem dropWhile_run (hs : s.all p) (ht : Off p t) : (s ++ t).dropWhile p = t := by
  rw [dropWhile_append_of_pos (all_eq_true.1 hs)]
  cases t with
  | nil => rfl
  | cons b t => exact dropWhile_cons_of_neg (by simp [ht b rfl])


theorem skipWs_append (hw : Ws w) : skipWs (w ++ s) = skipWs s :=
  dropWhile_append_of_pos (all_eq_true.1 hw)

theorem skipWs_cons (hb : isWs b = false) : skipWs (b :: s) = b :: s :=
  dropWhile_cons_of_neg (by simp [hb])

theorem skipWs_ws (hw : Ws w) : skipWs w = [] := by
  have := skipWs_append (s := []) hw
  rwa [append_nil] at this

theorem skipWs_skipWs (s : Bytes) : skipWs (skipWs s) = skipWs s := dropWhile_idempotent isWs s

theorem ws_skipWs (s : Bytes) : ∃ w, Ws w ∧ s = w ++ skipWs s :=
  ⟨s.takeWhile isWs, all_takeWhile, takeWhile_append_dropWhile.symm⟩

theorem ws_nil : Ws [] := rfl

theorem Ws.append (hs : Ws s) (ht : Ws t) : Ws (s ++ t) := by
  unfold Ws at *
  rw [all_append, hs, ht]
  rfl

theorem isNum_of_isDigit (h : isDigit b = true) : isNum b = true := by
  unfold isNum
  rw [h]
  rfl

theorem ws_off (hw : Ws w) (hs : Off isNum s) : Off isNum (w ++ s) := by
  cases w with
  | nil => exact hs
  | cons b w =>
    have hb : isWs b = true := all_eq_true.1 hw b mem_cons_self
    refine off_cons ?_
    simp only [isWs, Bool.or_eq_true, beq_iff_eq] at hb
    rcases hb with ((rfl | rfl) | rfl) | rfl <;> rfl

end Runs

section Numbers
variable {o : Bool} {s t r : Bytes}

theorem IntPart.spec (h : IntPart o s) : Digits s ∧ looseInt s = o := by
  cases h with
  | zero => exact ⟨⟨cons_ne_nil _ _, rfl⟩, rfl⟩
  | digits hd h0 hs =>
    refine ⟨⟨cons_ne_nil _ _, all_cons.trans (by rw [hd, hs]; rfl)⟩, ?_⟩
    simp [looseInt, h0]
  | zeros hs =>
    refine ⟨⟨cons_ne_nil _ _, all_cons.trans (by rw [hs.2]; rfl)⟩, ?_⟩
    simp [looseInt, hs.1]

theorem intPart_of_digits (hs : Digits s) : IntPart (looseInt s) s := by
  obtain ⟨hne, hall⟩ := hs
  cases s with
  | nil => exact absurd rfl hne
  | cons d s =>
    rw [all_cons, Bool.and_eq_true] at hall
    by_cases h0 : d = zero
    · subst h0
      by_cases hs : s = []
      · subst hs
        exact .zero
      · have hl : looseInt (zero :: s) = true := by simp [looseInt, hs]
        rw [hl]
        exact .zeros ⟨hs, hall.2⟩
    · have hl : looseInt (d :: s) = false := by simp [looseInt, h0]
      rw [hl]
      exact .digits hall.1 h0 hall.2

theorem scanFrac_point : scanFrac (point :: s) = ((s.takeWhile isDigit).isEmpty, s.dropWhile isDigit) := by
  rw [scanFrac, if_pos rfl]

theorem scanFrac_append (hs : FracPart o s) (ht : Off isDigit t) (hp : Off (· == point) t) :
    scanFrac (s ++ t) = (o, t) := by
  cases hs with
  | none =>
    cases t with
    | nil => rfl
    | cons b t =>
      have hb : b ≠ point := by simpa using hp b rfl
      exact if_neg hb
  | digits hd =>
    rw [cons_append, scanFrac_point, takeWhile_run hd.2 ht, dropWhile_run hd.2 ht,
      isEmpty_eq_false_iff.2 hd.1]
  | bare =>
    rw [cons_append, nil_append, scanFrac_point]
    exact congrArg₂ (fun x y => (List.isEmpty x, y)) (takeWhile_run (s := []) rfl ht) (dropWhile_run (s := []) rfl ht)

theorem scanFrac_spec (s : Bytes) : ∃ f, FracPart (scanFrac s).1 f ∧ s = f ++ (scanFrac s).2 := by
  cases s with
  | nil => exact ⟨[], .none, rfl⟩
  | cons b t =>
    by_cases hb : b = point
    · subst hb
      rw [scanFrac_point]
      refine ⟨point :: t.takeWhile isDigit, ?_, by simp⟩
      by_cases ht : t.takeWhile isDigit = []
      · rw [ht]
        exact .bare
      · rw [isEmpty_eq_false_iff.2 ht]
        exact .digits ⟨ht, all_takeWhile⟩
    · have hf : scanFrac (b :: t) = (false, b :: t) := if_neg hb
      rw [hf]
      exact ⟨[], .none, rfl⟩

theorem skipSign_of_off (hs : Off isSign s) : skipSign s = s := by
  cases s with
  | nil => rfl
  | cons b t => exact if_neg (by simp [hs b rfl])

theorem Digits.off_sign (hs : Digits s) : Off isSign (s ++ t) := by
  obtain ⟨hne, hall⟩ := hs
  cases s with
  | nil => exact absurd rfl hne
  | cons b s =>
    have hb : isDigit b = true := all_eq_true.1 hall b mem_cons_self
    refine off_cons ?_
    unfold isDigit at hb
    simp only [Bool.and_eq_true, decide_eq_true_eq, UInt8.le_iff_toNat_le] at hb
    simp only [isSign, Bool.or_eq_false_iff, beq_eq_false_iff_ne, ne_eq, UInt8.ext_iff]
    have h1 : plus.toNat = 0x2b := rfl
    have h2 : minus.toNat = 0x2d := rfl
    have h3 : (0x30 : UInt8).toNat = 0x30 := rfl
    omega

theorem scanExp_append (hs : ExpPart s) (hr : Off isNum r) : scanExp (s ++ r) = some r := by
  have hdig : Off isDigit r := hr.mono fun b hb => isNum_of_isDigit hb
  cases hs with
  | none =>
    cases r with
    | nil => rfl
    | cons b r =>
      have hb := hr b rfl
      simp only [isNum, Bool.or_eq_false_iff] at hb
      refine (if_neg (by simp [hb.1.1.2])).trans (if_neg (by simp [hb.1.2]))
  | @exp e sign d he hsign hd =>
    have hskip : skipSign (sign ++ d ++ r) = d ++ r := by
      rcases hsign with rfl | ⟨b, rfl, hb⟩
      · exact skipSign_of_off hd.off_sign
      · exact if_pos hb
    have hs : e :: sign ++ d ++ r = e :: (sign ++ d ++ r) := rfl
    rw [hs]
    refine (if_pos he).trans ?_
    rw [hskip, takeWhile_run hd.2 hdig, dropWhile_run hd.2 hdig, isEmpty_eq_false_iff.2 hd.1]
    rfl

theorem scanExp_some (h : scanExp s = some r) : ∃ x, ExpPart x ∧ s = x ++ r := by
  cases s with
  | nil =>
    cases h
    exact ⟨[], .none, rfl⟩
  | cons b t =>
    dsimp only [scanExp] at h
    split_ifs at h with he hd hsg
    · cases h
      have hrun : Digits ((skipSign t).takeWhile isDigit) := ⟨by simpa using hd, all_takeWhile⟩
      have htd := takeWhile_append_dropWhile (p := isDigit) (l := skipSign t)
      cases t with
      | nil => exact absurd rfl hrun.1
      | cons x t =>
        by_cases hx : isSign x = true
        · have hk : skipSign (x :: t) = t := if_pos hx
          rw [hk] at hrun htd ⊢
          exact ⟨b :: [x] ++ t.takeWhile isDigit, .exp he (.inr ⟨x, rfl, hx⟩) hrun, by simp⟩
        · have hk : skipSign (x :: t) = x :: t := if_neg hx
          rw [hk] at hrun htd ⊢
          refine ⟨b :: [] ++ (x :: t).takeWhile isDigit, .exp he (.inl rfl) hrun, ?_⟩
          rw [append_assoc, htd]
          rfl
    · cases h
      exact ⟨[], .none, rfl⟩

theorem skipMinus_of_off (hs : Off (· == minus) s) : skipMinus s = s := by
  cases s with
  | nil => rfl
  | cons b t => exact if_neg (by simpa using hs b rfl)

theorem skipMinus_spec (s : Bytes) : ∃ sign, (sign = [] ∨ sign = [minus]) ∧ s = sign ++ skipMinus s := by
  cases s with
  | nil => exact ⟨[], .inl rfl, rfl⟩
  | cons b t =>
    by_cases hb : b = minus
    · subst hb
      exact ⟨[minus], .inr rfl, rfl⟩
    · have hk : skipMinus (b :: t) = b :: t := if_neg hb
      exact ⟨[], .inl rfl, by rw [hk]; rfl⟩

theorem scanNumber_append (h : Number o s) (hr : Off isNum r) : scanNumber (s ++ r) = some (o, r) := by
  obtain ⟨sign, int, frac, exp, o, o', hsign, hint, hfrac, hexp, rfl, rfl⟩ := h
  obtain ⟨hd, hl⟩ := hint.spec
  have hskip : skipMinus (sign ++ int ++ frac ++ exp ++ r) = int ++ (frac ++ (exp ++ r)) := by
    simp only [append_assoc]
    rcases hsign with rfl | rfl
    · exact skipMinus_of_off (hd.off_sign.mono fun b hb => by simp [isSign, eq_of_beq hb])
    · rfl
  have hoff : Off isDigit (exp ++ r) ∧ Off (· == point) (exp ++ r) := by
    cases hexp with
    | none =>
      exact ⟨hr.mono fun b hb => isNum_of_isDigit hb, hr.mono fun b hb => by simp [isNum, eq_of_beq hb]⟩
    | exp he =>
      simp only [isE, Bool.or_eq_true, beq_iff_eq] at he
      rcases he with rfl | rfl <;> exact ⟨off_cons rfl, off_cons rfl⟩
  have hoff' : Off isDigit (frac ++ (exp ++ r)) := by
    cases hfrac with
    | none => exact hoff.1
    | digits => exact off_cons rfl
    | bare => exact off_cons rfl
  unfold scanNumber
  dsimp only
  rw [hskip, takeWhile_run hd.2 hoff', dropWhile_run hd.2 hoff', if_neg (by simpa using hd.1),
    scanFrac_append hfrac hoff.1 hoff.2, scanExp_append hexp hr, hl]
  rfl

theorem scanNumber_some (h : scanNumber s = some (o, r)) : ∃ p, Number o p ∧ s = p ++ r := by
  unfold scanNumber at h
  dsimp only at h
  split_ifs at h with hd
  obtain ⟨sign, hsign, hs⟩ := skipMinus_spec s
  have hdig : Digits ((skipMinus s).takeWhile isDigit) := ⟨by simpa using hd, all_takeWhile⟩
  obtain ⟨f, hf, hfs⟩ := scanFrac_spec ((skipMinus s).dropWhile isDigit)
  obtain ⟨r', he, hr⟩ := map_eq_some_iff.1 h
  obtain ⟨x, hx, hxs⟩ := scanExp_some he
  cases hr
  refine ⟨_, ⟨sign, _, f, x, _, _, hsign, intPart_of_digits hdig, hf, hx, rfl, rfl⟩, ?_⟩
  have hsplit := takeWhile_append_dropWhile (p := isDigit) (l := skipMinus s)
  rw [hfs, hxs] at hsplit
  rw [append_assoc, append_assoc, append_assoc, hsplit]
  exact hs

theorem Number.head (h : Number o s) : ∃ b t, s = b :: t ∧ (b = minus ∨ isDigit b) := by
  obtain ⟨sign, int, frac, exp, o, o', rfl | rfl, hint, hfrac, hexp, rfl, rfl⟩ := h
  · cases hint with
    | zero => exact ⟨_, _, rfl, .inr rfl⟩
    | digits hd => exact ⟨_, _, rfl, .inr hd⟩
    | zeros => exact ⟨_, _, rfl, .inr rfl⟩
  · exact ⟨_, _, rfl, .inl rfl⟩

end Numbers

section Strings
variable {o : Bool} {s k r : Bytes}

theorem scanChars_append (h : Chars o k) : scanChars (k ++ quote :: r) = some (o, r) := by
  induction h with
  | nil =>
    rw [nil_append, scanChars.eq_def]
    exact if_pos rfl
  | @char b o s hq hb _ ih =>
    rw [cons_append, scanChars.eq_def]
    dsimp only
    rw [if_neg hq, if_neg hb, ih]
    rfl
  | @escape b o s hb _ ih =>
    rw [cons_append, cons_append, scanChars.eq_def]
    dsimp only
    rw [if_neg (by decide), if_pos rfl, if_pos hb, ih]
  | @unicode x y z w o s hx hy hz hw _ ih =>
    simp only [cons_append]
    rw [scanChars.eq_def]
    dsimp only
    rw [if_neg (by decide), if_pos rfl, if_neg (by decide), if_pos rfl, if_pos (by simp [hx, hy, hz, hw]), ih]

theorem scanChars_some (h : scanChars s = some (o, r)) : ∃ k, Chars o k ∧ s = k ++ quote :: r := by
  fun_induction scanChars s generalizing o r with
  | case1 => cases h
  | case2 s =>
    cases h
    exact ⟨[], .nil, rfl⟩
  | case3 => cases h
  | case4 e s he _ ih =>
    obtain ⟨k, hk, rfl⟩ := ih h
    exact ⟨_, .escape he hk, rfl⟩
  | case5 x y z w s hhex _ _ ih =>
    simp only [Bool.and_eq_true] at hhex
    obtain ⟨⟨⟨hx, hy⟩, hz⟩, hw⟩ := hhex
    obtain ⟨k, hk, rfl⟩ := ih h
    exact ⟨_, .unicode hx hy hz hw hk, rfl⟩
  | case6 => cases h
  | case7 => cases h
  | case8 => cases h
  | case9 b s hq hb ih =>
    obtain ⟨⟨o', r'⟩, hr, ho⟩ := map_eq_some_iff.1 h
    cases ho
    obtain ⟨k, hk, rfl⟩ := ih hr
    exact ⟨_, .char hq hb hk, rfl⟩

end Strings

/-! ### What is accepted is in the grammar -/

section Sound
variable {value : Bytes → Scan} {o : Bool} {s r : Bytes} {n : Nat}

/-- What `value` reads is whitespace and a value. -/
def Sound (value : Bytes → Scan) : Prop :=
  ∀ s o r, value s = some (o, r) → ∃ w p, Ws w ∧ Phrase .value o p ∧ s = w ++ p ++ r

theorem Sound.element (hv : Sound value) (h : value s = some (o, r)) :
    ∃ p, Phrase .element o p ∧ s = p ++ skipWs r := by
  obtain ⟨w, p, hw, hp, rfl⟩ := hv s o r h
  obtain ⟨w', hw', hr⟩ := ws_skipWs r
  refine ⟨w ++ p ++ w', .element hw hp hw', ?_⟩
  rw [append_assoc (w ++ p), ← hr]

theorem scanElements_some (hv : Sound value) (h : scanElements value n s = some (o, r)) :
    ∃ p, Phrase .elements o p ∧ s = p ++ endArray :: r := by
  induction n generalizing s o with
  | zero => cases h
  | succ n ih =>
    obtain ⟨⟨o', t⟩, ht, h'⟩ := bind_eq_some_iff.1 h
    obtain ⟨p, hp, rfl⟩ := hv.element ht
    dsimp only at h'
    split at h'
    · cases h'
    rename_i b u hu
    rw [hu]
    split_ifs at h' with h1 h2
    · cases h'
      exact ⟨p, .one hp, by rw [h1]⟩
    · obtain ⟨⟨o'', t'⟩, ht', hx⟩ := map_eq_some_iff.1 h'
      cases hx
      obtain ⟨q, hq, rfl⟩ := ih ht'
      exact ⟨p ++ valueSeparator :: q, .more hp hq, by rw [h2, append_assoc]; rfl⟩

theorem scanName_some (h : scanName s = some (o, r)) : ∃ w k w', Ws w ∧ Chars o k ∧ Ws w' ∧
    s = w ++ quote :: k ++ quote :: w' ++ nameSeparator :: r := by
  unfold scanName at h
  obtain ⟨w, hw, hs⟩ := ws_skipWs s
  split at h
  · cases h
  rename_i b t ht
  rw [ht] at hs
  split_ifs at h with hb
  obtain ⟨⟨o', t'⟩, ht', h'⟩ := bind_eq_some_iff.1 h
  obtain ⟨k, hk, rfl⟩ := scanChars_some ht'
  obtain ⟨w', hw', hs'⟩ := ws_skipWs t'
  dsimp only at h'
  split at h'
  · cases h'
  rename_i b' u hu
  split_ifs at h' with hb'
  cases h'
  refine ⟨w, k, w', hw, hk, hw', ?_⟩
  rw [hs, hs', hu, hb, hb']
  simp

theorem scanMembers_some (hv : Sound value) (h : scanMembers value n s = some (o, r)) :
    ∃ p, Phrase .members o p ∧ s = p ++ endObject :: r := by
  induction n generalizing s o with
  | zero => cases h
  | succ n ih =>
    obtain ⟨⟨o₁, t⟩, ht, h₁⟩ := bind_eq_some_iff.1 h
    obtain ⟨⟨o₂, t'⟩, ht', h'⟩ := bind_eq_some_iff.1 h₁
    obtain ⟨w, k, w', hw, hk, hw', rfl⟩ := scanName_some ht
    obtain ⟨p, hp, hpt⟩ := hv.element ht'
    have hm := Phrase.member hw hk hw' hp
    rw [hpt, ← cons_append, ← append_assoc]
    dsimp only at h'
    split at h'
    · cases h'
    rename_i b u hu
    rw [hu]
    split_ifs at h' with h1 h2
    · cases h'
      exact ⟨_, .oneMember hm, by rw [h1]⟩
    · obtain ⟨⟨o'', u'⟩, hu', hx⟩ := map_eq_some_iff.1 h'
      cases hx
      obtain ⟨q, hq, rfl⟩ := ih hu'
      exact ⟨_, .moreMembers hm hq, by rw [h2]; simp⟩

theorem scanLit_some {lit : Bytes} (h : scanLit lit s = some (o, r)) : o = false ∧ s = lit ++ r := by
  unfold scanLit at h
  split_ifs at h with hl
  cases h
  refine ⟨rfl, ?_⟩
  conv_lhs => rw [← take_append_drop lit.length s, hl]

theorem sound_scanValue (n : Nat) : Sound (scanValue n) := by
  induction n with
  | zero => exact fun s o r h => by cases h
  | succ n ih =>
    intro s o r h
    unfold scanValue at h
    obtain ⟨w, hw, hs⟩ := ws_skipWs s
    split at h
    · cases h
    rename_i b t ht
    rw [ht] at hs
    refine ⟨w, ?_⟩
    suffices hp : ∃ p, Phrase .value o p ∧ b :: t = p ++ r by
      obtain ⟨p, hp, hbt⟩ := hp
      exact ⟨p, hw, hp, by rw [hs, hbt, append_assoc]⟩
    split_ifs at h with h1 h2 h3 h4 h5 h6 h7
    · obtain ⟨k, hk, rfl⟩ := scanChars_some h
      exact ⟨_, .string hk, by rw [h1]; simp⟩
    · obtain ⟨w', hw', hs'⟩ := ws_skipWs t
      split at h
      · cases h
      rename_i c u hu
      split_ifs at h with hc
      · cases h
        exact ⟨_, .emptyArray hw', by rw [hs', hu, h2, hc]; simp⟩
      · obtain ⟨p, hp, hpt⟩ := scanElements_some ih h
        exact ⟨_, .array hp, by rw [hpt, h2]; simp⟩
    · obtain ⟨w', hw', hs'⟩ := ws_skipWs t
      split at h
      · cases h
      rename_i c u hu
      split_ifs at h with hc
      · cases h
        exact ⟨_, .emptyObject hw', by rw [hs', hu, h3, hc]; simp⟩
      · obtain ⟨p, hp, hpt⟩ := scanMembers_some ih h
        exact ⟨_, .object hp, by rw [hpt, h3]; simp⟩
    · obtain ⟨rfl, hl⟩ := scanLit_some h
      exact ⟨_, .lit (.inr (.inl rfl)), hl⟩
    · obtain ⟨rfl, hl⟩ := scanLit_some h
      exact ⟨_, .lit (.inr (.inr rfl)), hl⟩
    · obtain ⟨rfl, hl⟩ := scanLit_some h
      exact ⟨_, .lit (.inl rfl), hl⟩
    · obtain ⟨p, hp, hs'⟩ := scanNumber_some h
      exact ⟨p, .number hp, hs'⟩

end Sound

/-! ### What is in the grammar is accepted -/

section Complete
variable {o : Bool} {s t r w : Bytes} {n : Nat} {k : Kind}

theorem Phrase.head (h : Phrase k o s) :
    ∃ w b t, s = w ++ b :: t ∧ Ws w ∧ isWs b = false ∧ b ≠ endArray ∧ b ≠ endObject := by
  induction h with
  | lit h => rcases h with rfl | rfl | rfl <;> exact ⟨[], _, _, rfl, ws_nil, rfl, by decide, by decide⟩
  | number h =>
    obtain ⟨b, t, rfl, hb⟩ := h.head
    refine ⟨[], b, t, rfl, ws_nil, ?_⟩
    rcases hb with rfl | hb
    · exact ⟨rfl, by decide, by decide⟩
    have hdig : ∀ c, isDigit c = false → b ≠ c := fun c hc hbc => by
      rw [← hbc, hb] at hc
      cases hc
    refine ⟨?_, hdig _ rfl, hdig _ rfl⟩
    simp only [isWs, Bool.or_eq_false_iff, beq_eq_false_iff_ne]
    exact ⟨⟨⟨hdig _ rfl, hdig _ rfl⟩, hdig _ rfl⟩, hdig _ rfl⟩
  | string => exact ⟨[], _, _, rfl, ws_nil, rfl, by decide, by decide⟩
  | emptyArray => exact ⟨[], _, _, rfl, ws_nil, rfl, by decide, by decide⟩
  | array => exact ⟨[], _, _, rfl, ws_nil, rfl, by decide, by decide⟩
  | emptyObject => exact ⟨[], _, _, rfl, ws_nil, rfl, by decide, by decide⟩
  | object => exact ⟨[], _, _, rfl, ws_nil, rfl, by decide, by decide⟩
  | @element o w₀ s w' hw _ hw' ih =>
    obtain ⟨w, b, t, rfl, hw₁, hb⟩ := ih
    exact ⟨w₀ ++ w, b, t ++ w', by simp, hw.append hw₁, hb⟩
  | one _ ih => exact ih
  | more _ _ ih =>
    obtain ⟨w, b, t, rfl, hw, hb⟩ := ih
    exact ⟨w, b, _, by rw [append_assoc]; rfl, hw, hb⟩
  | @member o o' w k w' s hw =>
    exact ⟨w, quote, k ++ quote :: w' ++ nameSeparator :: s, by simp, hw, rfl, by decide, by decide⟩
  | oneMember _ ih => exact ih
  | moreMembers _ _ ih =>
    obtain ⟨w, b, t, rfl, hw, hb⟩ := ih
    exact ⟨w, b, _, by rw [append_assoc]; rfl, hw, hb⟩

theorem scanValue_append (hw : Ws w) : scanValue n (w ++ s) = scanValue n s := by
  cases n with
  | zero => rfl
  | succ n => rw [scanValue, scanValue, skipWs_append hw]

theorem scanLit_append (lit : Bytes) : scanLit lit (lit ++ s) = some (false, s) := by
  rw [scanLit, if_pos (take_left' rfl), drop_left' rfl]

theorem scanValue_digit {b : UInt8} (hb : b = minus ∨ isDigit b) :
    scanValue (n + 1) (b :: s) = scanNumber (b :: s) := by
  rcases hb with rfl | hb
  · rfl
  have hdig : ∀ c, isDigit c = false → b ≠ c := fun c hc hbc => by
    rw [← hbc, hb] at hc
    cases hc
  have hws : isWs b = false := by
    simp only [isWs, Bool.or_eq_false_iff, beq_eq_false_iff_ne]
    exact ⟨⟨⟨hdig _ rfl, hdig _ rfl⟩, hdig _ rfl⟩, hdig _ rfl⟩
  rw [scanValue, skipWs_cons hws]
  dsimp only
  rw [if_neg (hdig _ rfl), if_neg (hdig _ rfl), if_neg (hdig _ rfl), if_neg (hdig _ rfl), if_neg (hdig _ rfl),
    if_neg (hdig _ rfl), if_pos (by rw [hb, Bool.or_true])]

section Loops
variable {value : Bytes → Scan} {m : Nat}

theorem scanElements_end (hv : value s = some (o, w ++ endArray :: r)) (hw : Ws w) :
    scanElements value (m + 1) s = some (o, r) := by
  rw [scanElements, hv]
  change (match skipWs (w ++ endArray :: r) with
    | [] => none
    | b :: t => if b = endArray then some (o, t) else _) = _
  rw [skipWs_append hw, skipWs_cons rfl]
  rfl

theorem scanElements_next (hv : value s = some (o, w ++ valueSeparator :: t)) (hw : Ws w) :
    scanElements value (m + 1) s = (scanElements value m t).map fun x => (o || x.1, x.2) := by
  rw [scanElements, hv]
  change (match skipWs (w ++ valueSeparator :: t) with
    | [] => none
    | b :: t => if b = endArray then some (o, t)
      else if b = valueSeparator then (scanElements value m t).map fun x : Bool × Bytes => (o || x.1, x.2)
        else none) = _
  rw [skipWs_append hw, skipWs_cons rfl]
  rfl

variable {o₁ o₂ : Bool} {u : Bytes}

theorem scanMembers_end (hn : scanName s = some (o₁, t)) (hv : value t = some (o₂, w ++ endObject :: r)) (hw : Ws w) :
    scanMembers value (m + 1) s = some (o₁ || o₂, r) := by
  rw [scanMembers, hn]
  change ((value t).bind fun x => match skipWs x.2 with
    | [] => none
    | b :: t => if b = endObject then some (o₁ || x.1, t) else _) = _
  rw [hv]
  change (match skipWs (w ++ endObject :: r) with
    | [] => none
    | b :: t => if b = endObject then some (o₁ || o₂, t) else _) = _
  rw [skipWs_append hw, skipWs_cons rfl]
  rfl

theorem scanMembers_next (hn : scanName s = some (o₁, t)) (hv : value t = some (o₂, w ++ valueSeparator :: u))
    (hw : Ws w) :
    scanMembers value (m + 1) s = (scanMembers value m u).map fun x => ((o₁ || o₂) || x.1, x.2) := by
  rw [scanMembers, hn]
  change ((value t).bind fun x => match skipWs x.2 with
    | [] => none
    | b :: t => if b = endObject then some (o₁ || x.1, t)
      else if b = valueSeparator then (scanMembers value m t).map fun y : Bool × Bytes => ((o₁ || x.1) || y.1, y.2)
        else none) = _
  rw [hv]
  change (match skipWs (w ++ valueSeparator :: u) with
    | [] => none
    | b :: t => if b = endObject then some (o₁ || o₂, t)
      else if b = valueSeparator then (scanMembers value m t).map fun y : Bool × Bytes => ((o₁ || o₂) || y.1, y.2)
        else none) = _
  rw [skipWs_append hw, skipWs_cons rfl]
  rfl

end Loops

/-- What `scan` does on a phrase with `r` after it. -/
def Reads : Kind → Bool → Bytes → Prop
  | .value, o, s => ∀ r n, Off isNum r → (s ++ r).length < n → scanValue n (s ++ r) = some (o, r)
  | .element, o, s => ∀ r n, Off isNum r → (s ++ r).length < n →
    ∃ w, Ws w ∧ scanValue n (s ++ r) = some (o, w ++ r)
  | .elements, o, s => ∀ r n m, (s ++ endArray :: r).length < n → (s ++ endArray :: r).length < m →
    scanElements (scanValue n) m (s ++ endArray :: r) = some (o, r)
  | .member, o, s => ∀ r n, Off isNum r → (s ++ r).length < n → ∃ o₁ o₂ t w,
    scanName (s ++ r) = some (o₁, t) ∧ scanValue n t = some (o₂, w ++ r) ∧ Ws w ∧ o = (o₁ || o₂)
  | .members, o, s => ∀ r n m, (s ++ endObject :: r).length < n → (s ++ endObject :: r).length < m →
    scanMembers (scanValue n) m (s ++ endObject :: r) = some (o, r)

section Brackets
variable {b c : UInt8} {f : Nat → Nat → Bytes → Scan}
  (hstep : ∀ n s, scanValue (n + 1) (b :: s) = match skipWs s with
    | [] => none
    | d :: t => if d = c then some (false, t) else f n (s.length + 1) s)
include hstep

theorem reads_empty (hw : Ws w) (hc : isWs c = false) : Reads .value false (b :: w ++ [c]) := by
  intro r n _ hn
  cases n with
  | zero => cases hn
  | succ n =>
    have hs : b :: w ++ [c] ++ r = b :: (w ++ c :: r) := by simp
    rw [hs, hstep, skipWs_append hw, skipWs_cons hc]
    exact if_pos rfl

/-- A value between two brackets, from what is read between them. -/
theorem reads_bracketed (h : ∃ w d t, s = w ++ d :: t ∧ Ws w ∧ isWs d = false ∧ d ≠ c)
    (ih : ∀ r n m, (s ++ c :: r).length < n → (s ++ c :: r).length < m → f n m (s ++ c :: r) = some (o, r)) :
    Reads .value o (b :: s ++ [c]) := by
  intro r n _ hn
  cases n with
  | zero => cases hn
  | succ n =>
    have hs : b :: s ++ [c] ++ r = b :: (s ++ c :: r) := by simp
    rw [hs] at hn ⊢
    obtain ⟨w, d, t, rfl, hw, hd, hne⟩ := h
    have hskip : skipWs (w ++ d :: t ++ c :: r) = d :: (t ++ c :: r) := by
      rw [append_assoc, skipWs_append hw]
      exact skipWs_cons hd
    rw [hstep, hskip]
    dsimp only
    rw [if_neg hne]
    exact ih r n _ (Nat.lt_of_succ_lt_succ hn) (Nat.lt_succ_self _)

end Brackets

theorem Phrase.reads (h : Phrase k o s) : Reads k o s := by
  induction h with
  | lit h =>
    intro r n _ hn
    cases n with
    | zero => cases hn
    | succ n =>
      rcases h with rfl | rfl | rfl
      · exact scanLit_append nullLit
      · exact scanLit_append trueLit
      · exact scanLit_append falseLit
  | number h =>
    intro r n hr hn
    cases n with
    | zero => cases hn
    | succ n =>
      have hnum := scanNumber_append h hr
      obtain ⟨b, t, rfl, hb⟩ := h.head
      exact (scanValue_digit hb).trans hnum
  | @string o s h =>
    intro r n _ hn
    cases n with
    | zero => cases hn
    | succ n =>
      have hs : quote :: s ++ [quote] ++ r = quote :: (s ++ quote :: r) := by simp
      rw [hs]
      exact scanChars_append h
  | emptyArray hw => exact reads_empty (fun _ _ => rfl) hw rfl
  | array h ih =>
    obtain ⟨w, d, t, hs, hw, hd, hne, -⟩ := h.head
    exact reads_bracketed (fun _ _ => rfl) ⟨w, d, t, hs, hw, hd, hne⟩ ih
  | emptyObject hw => exact reads_empty (fun _ _ => rfl) hw rfl
  | object h ih =>
    obtain ⟨w, d, t, hs, hw, hd, -, hne⟩ := h.head
    exact reads_bracketed (fun _ _ => rfl) ⟨w, d, t, hs, hw, hd, hne⟩ ih
  | @element o w s w' hw _ hw' ih =>
    intro r n hr hn
    refine ⟨w', hw', ?_⟩
    have hs : w ++ s ++ w' ++ r = w ++ (s ++ (w' ++ r)) := by simp
    rw [hs] at hn ⊢
    rw [scanValue_append hw]
    exact ih (w' ++ r) n (ws_off hw' hr) (by rw [length_append] at hn; omega)
  | @one o s _ ih =>
    intro r n m hn hm
    cases m with
    | zero => cases hm
    | succ m =>
      obtain ⟨w, hw, hv⟩ := ih (endArray :: r) n (off_cons rfl) hn
      exact scanElements_end hv hw
  | @more o o' s t _ _ ih₁ ih₂ =>
    intro r n m hn hm
    cases m with
    | zero => cases hm
    | succ m =>
      have hs : s ++ valueSeparator :: t ++ endArray :: r = s ++ valueSeparator :: (t ++ endArray :: r) := by simp
      rw [hs] at hn hm ⊢
      obtain ⟨w, hw, hv⟩ := ih₁ (valueSeparator :: (t ++ endArray :: r)) n (off_cons rfl) hn
      rw [length_append, length_cons] at hn hm
      rw [scanElements_next hv hw, ih₂ r n m (by omega) (by omega)]
      rfl
  | @member o o' w k w' s hw hk hw' _ ih =>
    intro r n hr hn
    have hs : w ++ quote :: k ++ quote :: w' ++ nameSeparator :: s ++ r =
        w ++ quote :: (k ++ quote :: (w' ++ nameSeparator :: (s ++ r))) := by simp
    rw [hs] at hn ⊢
    simp only [length_append, length_cons] at hn
    obtain ⟨w₁, hw₁, hv⟩ := ih r n hr (by rw [length_append]; omega)
    refine ⟨o, o', s ++ r, w₁, ?_, hv, hw₁, rfl⟩
    unfold scanName
    rw [skipWs_append hw, skipWs_cons rfl]
    dsimp only
    rw [if_pos rfl, scanChars_append hk]
    change (match skipWs (w' ++ nameSeparator :: (s ++ r)) with
      | [] => none
      | b :: t => if b = nameSeparator then some (o, t) else none) = _
    rw [skipWs_append hw', skipWs_cons rfl]
    rfl
  | @oneMember o s _ ih =>
    intro r n m hn hm
    cases m with
    | zero => cases hm
    | succ m =>
      obtain ⟨o₁, o₂, t, w, hname, hv, hw, rfl⟩ := ih (endObject :: r) n (off_cons rfl) hn
      exact scanMembers_end hname hv hw
  | @moreMembers o o' s t _ _ ih₁ ih₂ =>
    intro r n m hn hm
    cases m with
    | zero => cases hm
    | succ m =>
      have hs : s ++ valueSeparator :: t ++ endObject :: r = s ++ valueSeparator :: (t ++ endObject :: r) := by simp
      rw [hs] at hn hm ⊢
      obtain ⟨o₁, o₂, u, w, hname, hv, hw, rfl⟩ := ih₁ (valueSeparator :: (t ++ endObject :: r)) n (off_cons rfl) hn
      rw [length_append, length_cons] at hn hm
      rw [scanMembers_next hname hv hw, ih₂ r n m (by omega) (by omega)]
      rfl

theorem phrase_iff_scan : Phrase .element o s ↔ scan s = some o := by
  constructor
  · intro h
    obtain ⟨w, hw, hv⟩ := h.reads [] (s.length + 1) off_nil (by rw [append_nil]; exact Nat.lt_succ_self _)
    rw [append_nil, append_nil] at hv
    rw [scan, hv]
    exact if_pos (skipWs_ws hw)
  intro h
  obtain ⟨⟨o', r⟩, hv, h⟩ := bind_eq_some_iff.1 h
  obtain ⟨p, hp, hs⟩ := (sound_scanValue _).element hv
  dsimp only at h
  split_ifs at h with hr
  cases h
  rw [hs, hr, append_nil]
  exact hp

theorem text_or_loose_iff : Text s ∨ Loose s ↔ (scan s).isSome := by
  rw [isSome_iff_exists]
  constructor
  · rintro (h | h)
    · exact ⟨_, phrase_iff_scan.1 h⟩
    · exact ⟨_, phrase_iff_scan.1 h⟩
  · rintro ⟨o, h⟩
    cases o with
    | false => exact .inl (phrase_iff_scan.2 h)
    | true => exact .inr (phrase_iff_scan.2 h)

theorem Loose.not_text (h : Loose s) : ¬ Text s := fun ht => by
  cases (phrase_iff_scan.1 h).symm.trans (phrase_iff_scan.1 ht)

end Complete

end Rfc8259
