import Node9.Fmt
import Node9.Tokenize

/-!
# Quoted strings (`fmtquote.c` of lib9)

`%q` puts quotes around a string that needs them and writes the quotes in it twice. `_quotesetup` counts what will be
written in `int`s: it ends with the text, or overflows (`quoteLoop_runes`). What is written is read by `tokenize` as
the string (`tokens_command`).
-/

namespace Node9.Quote
open Buf Rune Utf8 Fmt Tokenize
open Option hiding any_eq_false
open List hiding tails

/-- An `int` that does not overflow. -/
def int (n : Nat) : Option Nat := if n < 2 ^ 31 then some n else none

structure Quoteinfo where
  quoted : Bool
  nrunesin : Nat
  nbytesin : Nat
  nrunesout : Nat
  nbytesout : Nat

/-- The `doquote` of the program is a function, or nil and then never true. -/
def special (doquote : Nat → Bool) (c : Nat) : Bool := c ≤ 32 || c = 39 || doquote c

/-- Quotes at the first character that needs them, and whether there is room. -/
def addQuotes (nout w : Nat) (q : Quoteinfo) : Option (Quoteinfo × Bool) :=
  if q.quoted then some (q, true)
  else (int (1 + q.nbytesout + w + 1)).map fun n =>
    if n > nout then (q, false)
    else ({ q with nrunesout := q.nrunesout + 2, nbytesout := q.nbytesout + 2, quoted := true }, true)

def addTwice (nout w : Nat) (q : Quoteinfo) : Option (Quoteinfo × Bool) :=
  (int (1 + q.nbytesout + w)).map fun n =>
    if n > nout then (q, false)
    else ({ q with nbytesout := q.nbytesout + 1, nrunesout := q.nrunesout + 1 }, true)

def advance (w : Nat) (q : Quoteinfo) : Quoteinfo :=
  { q with
    nbytesin := q.nbytesin + w, nrunesin := q.nrunesin + 1
    nbytesout := q.nbytesout + w, nrunesout := q.nrunesout + 1 }

/-- The loop of `_quotesetup` for a string of bytes and no bound on its input, with as many turns as it has bytes. -/
def quoteLoop (doquote : Nat → Bool) (nout : Nat) : Nat → Bytes → Quoteinfo → Option Quoteinfo
  | 0, _, q => some q
  | fuel + 1, s, q =>
    let c := (chartorune s).1
    let w := (chartorune s).2
    if c = 0 then some q
    else (int (q.nbytesout + w)).bind fun n =>
      if n > nout then some q
      else if special doquote c then
        (addQuotes nout w q).bind fun r =>
          if r.2 = false then some r.1
          else if c = 39 then
            (addTwice nout w r.1).bind fun r =>
              if r.2 = false then some r.1 else quoteLoop doquote nout fuel (s.drop w) (advance w r.1)
          else quoteLoop doquote nout fuel (s.drop w) (advance w r.1)
      else quoteLoop doquote nout fuel (s.drop w) (advance w q)

def quotesetup (doquote : Nat → Bool) (s : Bytes) (nout : Nat) (sharp : Bool) : Option Quoteinfo :=
  if sharp = true ∨ s = [] then
    if nout < 2 then some ⟨false, 0, 0, 0, 0⟩ else quoteLoop doquote nout s.length s ⟨true, 0, 0, 2, 2⟩
  else quoteLoop doquote nout s.length s ⟨false, 0, 0, 0, 0⟩

/-- The units of a rune: a quote comes twice. -/
def twice (c : Nat) (u : Bytes) : List Bytes := if c = 39 then [u, u] else [u]

/-- The loop of `qstrfmt`. -/
def qLoop : Nat → Bytes → List Bytes
  | 0, _ => []
  | _ + 1, [] => []
  | nc + 1, b :: m =>
    if b.toNat < Runeself then twice b.toNat [b] ++ qLoop nc m
    else if (b :: m).length ≥ UTFmax ∨ fullrune (b :: m) (b :: m).length = true then
      twice (chartorune (b :: m)).1 (runetochar (chartorune (b :: m)).1).1 ++
        qLoop nc ((b :: m).drop (chartorune (b :: m)).2)
    else []

def qstrfmt (s : Bytes) (q : Quoteinfo) : List Bytes :=
  [quote] :: (qLoop q.nrunesin (s.take q.nbytesin) ++ [[quote]])

/-- "if we can flush, no output limit" -/
def outlen : Nat := 0x7FFFFFFF

/-- `%q` into an output that can be flushed: the units that are written. -/
def quotestrfmt (doquote : Nat → Bool) (sharp : Bool) (s : Bytes) : Option (List Bytes) :=
  (quotesetup doquote s outlen sharp).map fun q =>
    if q.quoted then qstrfmt s q else copyLoop q.nrunesin (s.take q.nbytesin)

/-- The `%q` forms of some strings with spaces between them. -/
def command (doquote : Nat → Bool) (sharp : Bool) (ss : List Bytes) : Option Bytes :=
  (ss.mapM (quotestrfmt doquote sharp)).map fun us => [32].intercalate (us.map flatten)

variable {doquote : Nat → Bool} {sharp : Bool} {c fuel : Nat} {cs : List Nat} {q : Quoteinfo} {t : Bytes}

/-- One turn where nothing overflows. -/
def next (doquote : Nat → Bool) (q : Quoteinfo) (c : Nat) : Quoteinfo :=
  let add := (if special doquote c && !q.quoted then 2 else 0) + if c = 39 then 1 else 0
  { quoted := q.quoted || special doquote c
    nrunesin := q.nrunesin + 1
    nbytesin := q.nbytesin + (extra c + 1)
    nrunesout := q.nrunesout + (1 + add)
    nbytesout := q.nbytesout + (extra c + 1 + add) }

theorem int_pos {n : Nat} (h : n < 2 ^ 31) : int n = some n := if_pos h

theorem int_neg {n : Nat} (h : ¬n < 2 ^ 31) : int n = none := if_neg h

theorem not_gt_outlen {n : Nat} (h : n < 2 ^ 31) : ¬n > outlen := by
  show ¬n > 0x7FFFFFFF
  omega

theorem addQuotes_quoted {w : Nat} (h : q.quoted = true) : addQuotes outlen w q = some (q, true) := if_pos h

theorem addQuotes_plain {w : Nat} (h : q.quoted = false) : addQuotes outlen w q =
    if q.nbytesout + 2 + w < 2 ^ 31 then
      some ({ q with nrunesout := q.nrunesout + 2, nbytesout := q.nbytesout + 2, quoted := true }, true)
    else none := by
  unfold addQuotes
  rw [if_neg (by rw [h]; exact Bool.false_ne_true)]
  by_cases hlt : 1 + q.nbytesout + w + 1 < 2 ^ 31
  · rw [int_pos hlt, map_some, if_neg (not_gt_outlen hlt), if_pos (by omega)]
  · rw [int_neg hlt, map_none, if_neg (by omega)]

theorem addTwice_eq (w : Nat) (q : Quoteinfo) : addTwice outlen w q =
    if q.nbytesout + 1 + w < 2 ^ 31 then
      some ({ q with nbytesout := q.nbytesout + 1, nrunesout := q.nrunesout + 1 }, true)
    else none := by
  unfold addTwice
  by_cases h : 1 + q.nbytesout + w < 2 ^ 31
  · rw [int_pos h, map_some, if_neg (not_gt_outlen h), if_pos (by omega)]
  · rw [int_neg h, map_none, if_neg (by omega)]

theorem special_quote (h : special doquote c = false) : c ≠ 39 := by
  rintro rfl
  exact absurd h (by simp [special])

theorem next_plain (h : special doquote c = false) : next doquote q c = advance (extra c + 1) q := by
  have hc := special_quote h
  rw [next, advance, h, if_neg hc, Bool.false_and, if_neg Bool.false_ne_true, Bool.or_false]

theorem next_quoted (h : special doquote c = true) (hq : q.quoted = true) :
    next doquote q c = advance (extra c + 1)
      { q with
        nbytesout := q.nbytesout + (if c = 39 then 1 else 0)
        nrunesout := q.nrunesout + (if c = 39 then 1 else 0) } := by
  obtain ⟨quoted, nrunesin, nbytesin, nrunesout, nbytesout⟩ := q
  obtain rfl : quoted = true := hq
  simp only [next, advance, h, Bool.not_true, Bool.and_false, Bool.false_eq_true, if_false, Bool.true_or,
    Quoteinfo.mk.injEq, true_and]
  omega

theorem next_first (h : special doquote c = true) (hq : q.quoted = false) :
    next doquote q c =
      next doquote { q with nrunesout := q.nrunesout + 2, nbytesout := q.nbytesout + 2, quoted := true } c := by
  obtain ⟨quoted, nrunesin, nbytesin, nrunesout, nbytesout⟩ := q
  obtain rfl : quoted = false := hq
  simp only [next, h, Bool.not_true, Bool.not_false, Bool.and_false, Bool.and_true, Bool.false_eq_true, if_true,
    if_false, Bool.or_true, Quoteinfo.mk.injEq, true_and]
  omega

theorem turn_quoted (h : special doquote c = true) (hq : q.quoted = true)
    (hlt : q.nbytesout + (extra c + 1) < 2 ^ 31) (fuel : Nat) (t : Bytes) :
    (if c = 39 then
      (addTwice outlen (extra c + 1) q).bind fun r =>
        if r.2 = false then some r.1 else quoteLoop doquote outlen fuel t (advance (extra c + 1) r.1)
    else quoteLoop doquote outlen fuel t (advance (extra c + 1) q)) =
      if (next doquote q c).nbytesout < 2 ^ 31 then quoteLoop doquote outlen fuel t (next doquote q c) else none := by
  rw [next_quoted h hq]
  by_cases hc : c = 39
  · rw [if_pos hc, if_pos hc, addTwice_eq]
    by_cases hfit : q.nbytesout + 1 + (extra c + 1) < 2 ^ 31
    · rw [if_pos hfit, bind_some]
      exact (if_pos hfit).symm
    · rw [if_neg hfit, bind_none]
      exact (if_neg hfit).symm
  · rw [if_neg hc, if_neg hc]
    exact (if_pos hlt).symm

theorem quoteLoop_encode (hc : Scalar c) (h0 : c ≠ 0) (fuel : Nat) (t : Bytes) (q : Quoteinfo) :
    quoteLoop doquote outlen (fuel + 1) (encode c ++ t) q =
      if (next doquote q c).nbytesout < 2 ^ 31 then quoteLoop doquote outlen fuel t (next doquote q c) else none := by
  have hrune : chartorune (encode c ++ t) = (c, extra c + 1) := by
    rw [← encode_length]
    exact chartorune_encode hc fun k hk => getD_append (encode c) t 0 k hk
  have hdrop : (encode c ++ t).drop (extra c + 1) = t := drop_left' encode_length
  have hle : q.nbytesout + (extra c + 1) ≤ (next doquote q c).nbytesout :=
    Nat.add_le_add_left (Nat.le_add_right _ _) _
  rw [quoteLoop, hrune]
  dsimp only
  rw [if_neg h0, hdrop]
  by_cases hlt : q.nbytesout + (extra c + 1) < 2 ^ 31
  case neg => rw [int_neg hlt, bind_none, if_neg (by omega)]
  rw [int_pos hlt, bind_some, if_neg (not_gt_outlen hlt)]
  by_cases hs : special doquote c = true
  case neg =>
    rw [if_neg hs, next_plain (by simpa using hs)]
    exact (if_pos hlt).symm
  rw [if_pos hs]
  by_cases hq : q.quoted = true
  · rw [addQuotes_quoted hq, bind_some, if_neg (by simp)]
    exact turn_quoted hs hq hlt fuel t
  have hq : q.quoted = false := by simpa using hq
  rw [addQuotes_plain hq]
  by_cases hfit : q.nbytesout + 2 + (extra c + 1) < 2 ^ 31
  · rw [if_pos hfit, bind_some, if_neg (by simp), next_first hs hq]
    exact turn_quoted hs rfl hfit fuel t
  · have hover : ¬(next doquote q c).nbytesout < 2 ^ 31 := by
      rw [next_first hs hq, next_quoted hs rfl]
      show ¬q.nbytesout + 2 + _ + (extra c + 1) < 2 ^ 31
      omega
    rw [if_neg hfit, bind_none, if_neg hover]

/-- The characters of a rune in a quoted string. -/
def doubled (c : Nat) : Bytes := (twice c (encode c)).flatten

theorem doubled_length (c : Nat) : (doubled c).length = extra c + 1 + if c = 39 then 1 else 0 := by
  unfold doubled twice
  split_ifs with hc
  · subst hc
    rfl
  · rw [flatten_singleton, encode_length]

theorem foldl_next (doquote : Nat → Bool) : ∀ (cs : List Nat) (q : Quoteinfo),
    (cs.foldl (next doquote) q).quoted = (q.quoted || cs.any (special doquote)) ∧
    (cs.foldl (next doquote) q).nrunesin = q.nrunesin + cs.length ∧
    (cs.foldl (next doquote) q).nbytesin = q.nbytesin + (cs.flatMap encode).length ∧
    (cs.foldl (next doquote) q).nbytesout =
      q.nbytesout + (if cs.any (special doquote) && !q.quoted then 2 else 0) + (cs.flatMap doubled).length
  | [], q => ⟨(Bool.or_false _).symm, rfl, rfl, rfl⟩
  | c :: cs, q => by
    obtain ⟨h1, h2, h3, h4⟩ := foldl_next doquote cs (next doquote q c)
    rw [foldl_cons, h1, h2, h3, h4, any_cons, flatMap_cons, flatMap_cons, length_append,
      length_append, length_cons, encode_length, doubled_length]
    obtain ⟨quoted, nrunesin, nbytesin, nrunesout, nbytesout⟩ := q
    refine ⟨Bool.or_assoc _ _ _, ?_, ?_, ?_⟩
    · show nrunesin + 1 + cs.length = nrunesin + (cs.length + 1)
      omega
    · show nbytesin + (extra c + 1) + _ = nbytesin + _
      omega
    · show nbytesout + (extra c + 1 + ((if special doquote c && !quoted then 2 else 0) + _)) +
        (if cs.any (special doquote) && !(quoted || special doquote c) then 2 else 0) + _ = nbytesout + _ + _
      cases quoted <;> cases special doquote c <;> cases cs.any (special doquote) <;> simp <;> omega

theorem quoteLoop_runes : ∀ (cs : List Nat) (fuel : Nat) (q : Quoteinfo), (∀ c ∈ cs, Scalar c ∧ c ≠ 0) →
    cs.length ≤ fuel → q.nbytesout < 2 ^ 31 →
      quoteLoop doquote outlen fuel (cs.flatMap encode) q =
        if (cs.foldl (next doquote) q).nbytesout < 2 ^ 31 then some (cs.foldl (next doquote) q) else none
  | [], fuel, q, _, _, hq => by
    have hend : quoteLoop doquote outlen fuel [] q = some q := by
      rcases fuel with _ | fuel
      · rfl
      · rw [quoteLoop]
        exact if_pos rfl
    rw [flatMap_nil, hend, foldl_nil, if_pos hq]
  | c :: cs, fuel, q, hcs, hf, hq => by
    obtain ⟨hc, h0⟩ := hcs c mem_cons_self
    obtain ⟨fuel, rfl⟩ := Nat.exists_eq_succ_of_ne_zero (Nat.ne_of_gt (lt_of_lt_of_le (Nat.succ_pos _) hf))
    rw [flatMap_cons, quoteLoop_encode hc h0, foldl_cons]
    by_cases hlt : (next doquote q c).nbytesout < 2 ^ 31
    · rw [if_pos hlt, quoteLoop_runes cs fuel _ (fun d hd => hcs d (mem_cons_of_mem c hd))
        (Nat.le_of_succ_le_succ hf) hlt]
    · have hmore := (foldl_next doquote cs (next doquote q c)).2.2.2
      rw [if_neg hlt, if_neg (by omega)]

abbrev Text : Type := { cs : List Nat // ∀ c ∈ cs, Scalar c ∧ c ≠ 0 }

def Text.bytes (s : Text) : Bytes := s.1.flatMap encode

def needs (doquote : Nat → Bool) (sharp : Bool) (cs : List Nat) : Bool :=
  sharp || cs.isEmpty || cs.any (special doquote)

/-- The `%q` form of a string. -/
def form (doquote : Nat → Bool) (sharp : Bool) (cs : List Nat) : Bytes :=
  if needs doquote sharp cs then quote :: (cs.flatMap doubled ++ [quote]) else cs.flatMap encode

theorem form_length (h : needs doquote sharp cs = true) :
    (form doquote sharp cs).length = 2 + (cs.flatMap doubled).length := by
  rw [form, if_pos h, length_cons, length_append, length_singleton]
  omega

theorem doubled_plain : ∀ {cs : List Nat}, cs.any (special doquote) = false → cs.flatMap doubled = cs.flatMap encode
  | [], _ => rfl
  | c :: cs, h => by
    obtain ⟨hc, hcs⟩ := Bool.or_eq_false_iff.1 (any_cons.symm.trans h)
    have hone : doubled c = encode c := by
      rw [doubled, twice, if_neg (special_quote hc)]
      exact append_nil _
    rw [flatMap_cons, flatMap_cons, hone, doubled_plain hcs]

theorem Text.bytes_eq_nil {s : Text} : s.bytes = [] ↔ s.1 = [] := by
  constructor
  · intro h
    have hlen := length_le_encode s.1
    rw [show s.1.flatMap encode = [] from h] at hlen
    exact eq_nil_of_length_eq_zero (Nat.le_zero.1 hlen)
  · intro h
    rw [Text.bytes, h]
    rfl

theorem quotesetup_text (doquote : Nat → Bool) (sharp : Bool) (s : Text) :
    ∃ q, q.quoted = needs doquote sharp s.1 ∧ q.nrunesin = s.1.length ∧ q.nbytesin = s.bytes.length ∧
      quotesetup doquote s.bytes outlen sharp =
        if (form doquote sharp s.1).length < 2 ^ 31 then some q else none := by
  by_cases hs : sharp = true ∨ s.bytes = []
  · have hneeds : needs doquote sharp s.1 = true := by
      rcases hs with rfl | hs
      · rfl
      · rw [needs, Text.bytes_eq_nil.1 hs, isEmpty_nil, Bool.or_true, Bool.true_or]
    have hloop : quoteLoop doquote outlen s.bytes.length s.bytes ⟨true, 0, 0, 2, 2⟩ = _ :=
      quoteLoop_runes s.1 _ _ s.2 (length_le_encode s.1) (show 2 < 2 ^ 31 by decide)
    obtain ⟨h1, h2, h3, h4⟩ := foldl_next doquote s.1 ⟨true, 0, 0, 2, 2⟩
    have hout : (s.1.foldl (next doquote) ⟨true, 0, 0, 2, 2⟩).nbytesout = (form doquote sharp s.1).length := by
      rw [h4, form_length hneeds]
      simp
    refine ⟨s.1.foldl (next doquote) ⟨true, 0, 0, 2, 2⟩, ?_, ?_, ?_, ?_⟩
    · rw [h1, hneeds]
      rfl
    · rw [h2, zero_add]
    · rw [h3, zero_add]
      rfl
    · rw [quotesetup, if_pos hs, if_neg (by decide), ← hout]
      exact hloop
  obtain ⟨hsharp, hne⟩ := not_or.1 hs
  have hneeds : needs doquote sharp s.1 = s.1.any (special doquote) := by
    have hcs : s.1.isEmpty = false := by simpa using mt Text.bytes_eq_nil.2 hne
    rw [needs, hcs, Bool.eq_false_of_not_eq_true hsharp, Bool.false_or, Bool.false_or]
  have hloop : quoteLoop doquote outlen s.bytes.length s.bytes ⟨false, 0, 0, 0, 0⟩ = _ :=
    quoteLoop_runes s.1 _ _ s.2 (length_le_encode s.1) (show 0 < 2 ^ 31 by decide)
  obtain ⟨h1, h2, h3, h4⟩ := foldl_next doquote s.1 ⟨false, 0, 0, 0, 0⟩
  have hout : (s.1.foldl (next doquote) ⟨false, 0, 0, 0, 0⟩).nbytesout = (form doquote sharp s.1).length := by
    rw [h4]
    by_cases hany : s.1.any (special doquote) = true
    · rw [form_length (hneeds.trans hany), hany]
      simp
    · have hany : s.1.any (special doquote) = false := by simpa using hany
      rw [form, hneeds, hany, if_neg Bool.false_ne_true, doubled_plain hany]
      simp
  refine ⟨s.1.foldl (next doquote) ⟨false, 0, 0, 0, 0⟩, ?_, ?_, ?_, ?_⟩
  · rw [h1, hneeds]
    rfl
  · rw [h2, zero_add]
  · rw [h3, zero_add]
    rfl
  · rw [quotesetup, if_neg hs, ← hout]
    exact hloop

theorem qLoop_encode (hc : Scalar c) (nc : Nat) (t : Bytes) :
    qLoop (nc + 1) (encode c ++ t) = twice c (encode c) ++ qLoop nc t := by
  rcases encode_takes hc t with ⟨b, hb, hbyte, hlow⟩ | ⟨b, m, hb, hbig, hfull, hrune, hdrop, hchar⟩
  · rw [hb, ← hbyte]
    exact if_pos (hbyte.symm ▸ hlow)
  · rw [hb, cons_append, qLoop, if_neg hbig, if_pos (.inr hfull), hrune, hdrop, hchar]

theorem qLoop_runes : ∀ (cs : List Nat), (∀ c ∈ cs, Scalar c ∧ c ≠ 0) →
    (qLoop cs.length (cs.flatMap encode)).flatten = cs.flatMap doubled
  | [], _ => rfl
  | c :: cs, hcs => by
    rw [flatMap_cons, length_cons, qLoop_encode (hcs c mem_cons_self).1, flatten_append,
      qLoop_runes cs fun d hd => hcs d (mem_cons_of_mem c hd)]
    rfl

theorem quotestrfmt_text (doquote : Nat → Bool) (sharp : Bool) (s : Text) :
    (quotestrfmt doquote sharp s.bytes).map flatten =
      if (form doquote sharp s.1).length < 2 ^ 31 then some (form doquote sharp s.1) else none := by
  obtain ⟨q, hq, hrunes, hbytes, hsetup⟩ := quotesetup_text doquote sharp s
  rw [quotestrfmt, hsetup]
  by_cases hlt : (form doquote sharp s.1).length < 2 ^ 31
  · rw [if_pos hlt, if_pos hlt, map_some, map_some, form, hq, hrunes, hbytes, take_length]
    by_cases hneeds : needs doquote sharp s.1 = true
    · rw [if_pos hneeds, if_pos hneeds, qstrfmt, hrunes, hbytes, take_length, flatten_cons,
        flatten_append, Text.bytes, qLoop_runes s.1 s.2]
      rfl
    · rw [if_neg hneeds, if_neg hneeds]
      exact congrArg some (copyLoop_valid s.1 _ (fun c hc => (s.2 c hc).1) le_rfl)
  · rw [if_neg hlt, if_neg hlt]
    rfl

theorem mem_encode (hc : Scalar c) {b : UInt8} (hb : b ∈ encode c) : b.toNat = c ∨ 0x80 ≤ b.toNat := by
  have htail : ∀ k, ∀ x ∈ tails c k, 0x80 ≤ x.toNat := by
    intro k
    induction k with
    | zero => exact fun x hx => absurd hx not_mem_nil
    | succ k ih =>
      intro x hx
      rcases mem_cons.1 hx with rfl | hx
      · have hlt := Nat.mod_lt (c / 64 ^ k) (show 0 < 64 by decide)
        rw [toNat_ofNat_of_lt (by omega)]
        exact Nat.le_add_right _ _
      · exact ih x hx
  rcases lt_or_ge c 0x80 with h1 | h1
  · rw [encode_one h1] at hb
    rw [mem_singleton.1 hb, toNat_ofNat_of_lt (by omega)]
    exact .inl rfl
  refine .inr ?_
  rcases mem_cons.1 hb with rfl | hb
  · have hlead := lead_toNat hc []
    rw [append_nil] at hlead
    have hge : 0x80 ≤ lead (extra c) := by
      unfold extra
      rw [if_neg (Nat.not_lt.2 h1)]
      split_ifs <;> decide
    rw [show (UInt8.ofNat _).toNat = _ from hlead]
    exact hge.trans (Nat.le_add_right _ _)
  · exact htail _ b hb

theorem isSep_low {b : UInt8} (h : isSep b = true) : b.toNat ≤ 32 := by
  have hb : b = 32 ∨ b = 9 ∨ b = 13 ∨ b = 10 ∨ b = 0 := by simpa [isSep, strchr, qsep] using h
  rcases hb with rfl | rfl | rfl | rfl | rfl <;> decide

theorem scan_quoting : ∀ {u : Bytes}, quote ∉ u →
    scan .quoting (u ++ t) = (u ++ (scan .quoting t).1, (scan .quoting t).2)
  | [], _ => rfl
  | b :: u, h => by
    have hb : b ≠ quote := fun hb => h (hb ▸ mem_cons_self)
    rw [cons_append, scan, if_neg hb, scan_quoting fun hu => h (mem_cons_of_mem b hu)]
    rfl

theorem scan_plain : ∀ {u : Bytes}, (∀ b ∈ u, b ≠ quote ∧ isSep b = false) →
    scan .plain (u ++ t) = (u ++ (scan .plain t).1, (scan .plain t).2)
  | [], _ => rfl
  | b :: u, h => by
    obtain ⟨hb, hsep⟩ := h b mem_cons_self
    rw [cons_append, scan, if_neg (by rw [hsep]; exact Bool.false_ne_true), if_neg hb,
      scan_plain fun x hx => h x (mem_cons_of_mem b hx)]
    rfl

theorem scan_doubled : ∀ (cs : List Nat), (∀ c ∈ cs, Scalar c ∧ c ≠ 0) →
    scan .quoting (cs.flatMap doubled ++ t) = (cs.flatMap encode ++ (scan .quoting t).1, (scan .quoting t).2)
  | [], _ => rfl
  | c :: cs, hcs => by
    have ih := scan_doubled cs fun d hd => hcs d (mem_cons_of_mem c hd)
    rw [flatMap_cons, append_assoc, flatMap_cons, append_assoc]
    by_cases hc : c = 39
    · have htwo : doubled c = [quote, quote] := by
        subst hc
        rfl
      have hone : encode c = [quote] := by
        subst hc
        rfl
      rw [htwo, hone, cons_append, singleton_append, scan, if_pos rfl, scan, if_pos rfl, ih]
      rfl
    have hone : doubled c = encode c := by
      rw [doubled, twice, if_neg hc]
      exact append_nil _
    have hno : quote ∉ encode c := by
      intro hmem
      rcases mem_encode (hcs c mem_cons_self).1 hmem with h | h
      · exact hc h.symm
      · exact absurd h (by decide)
    rw [hone, scan_quoting hno, ih]

def Ends (t : Bytes) : Prop := ∀ b ∈ t.head?, isSep b = true

theorem scan_end (h : Ends t) (m : Mode) (hm : m ≠ .quoting) : scan m t = ([], t) := by
  rcases t with _ | ⟨b, t⟩
  · exact rfl
  have hb : isSep b = true := h b rfl
  have hq : b ≠ quote := by
    rintro rfl
    exact absurd hb (by decide)
  cases m with
  | plain => rw [scan, if_pos hb]
  | quoting => exact absurd rfl hm
  | seen => rw [scan, if_neg hq, if_pos hb]

theorem plain_bytes {s : Text} (h : needs doquote sharp s.1 = false) : ∀ b ∈ s.bytes, b ≠ quote ∧ isSep b = false := by
  have hany : s.1.any (special doquote) = false := (Bool.or_eq_false_iff.1 h).2
  intro b hb
  obtain ⟨c, hc, hbc⟩ := mem_flatMap.1 hb
  have hspecial : special doquote c = false := by simpa using any_eq_false.1 hany c hc
  have hbig : 32 < c ∧ c ≠ 39 := by
    rw [special] at hspecial
    simp only [Bool.or_eq_false_iff, decide_eq_false_iff_not] at hspecial
    omega
  have hb : 32 < b.toNat ∧ b.toNat ≠ 39 := by
    rcases mem_encode (s.2 c hc).1 hbc with h | h <;> omega
  refine ⟨?_, Bool.eq_false_of_not_eq_true fun hsep => absurd (isSep_low hsep) (Nat.not_le.2 hb.1)⟩
  rintro rfl
  exact hb.2 rfl

theorem scan_form (s : Text) (h : Ends t) : scan .plain (form doquote sharp s.1 ++ t) = (s.bytes, t) := by
  by_cases hneeds : needs doquote sharp s.1 = true
  · have hopen : scan .plain (quote :: (s.1.flatMap doubled ++ (quote :: t))) =
        scan .quoting (s.1.flatMap doubled ++ (quote :: t)) := scan_open rfl rfl
    have hclose : scan .quoting (quote :: t) = ([], t) := by
      rw [scan, if_pos rfl, scan_end h .seen (by rintro ⟨⟩)]
    rw [form, if_pos hneeds, cons_append, append_assoc, singleton_append, hopen,
      scan_doubled s.1 s.2, hclose, append_nil]
    rfl
  · have hplain := plain_bytes (Bool.eq_false_of_not_eq_true hneeds)
    rw [form, if_neg hneeds]
    show scan .plain (s.bytes ++ t) = _
    rw [scan_plain hplain, scan_end h .plain (by rintro ⟨⟩), append_nil]

theorem form_head (doquote : Nat → Bool) (sharp : Bool) (s : Text) :
    ∃ b m, form doquote sharp s.1 = b :: m ∧ isSep b = false := by
  by_cases hneeds : needs doquote sharp s.1 = true
  · exact ⟨quote, _, by rw [form, if_pos hneeds], rfl⟩
  have hneeds := Bool.eq_false_of_not_eq_true hneeds
  have hne : s.1 ≠ [] := by
    intro hnil
    rw [needs, hnil, isEmpty_nil, Bool.or_true, Bool.true_or] at hneeds
    exact Bool.false_ne_true hneeds.symm
  obtain ⟨b, m, hb⟩ := exists_cons_of_ne_nil (mt Text.bytes_eq_nil.1 hne)
  have hform : form doquote sharp s.1 = s.bytes := by
    rw [form, hneeds, if_neg Bool.false_ne_true]
    rfl
  exact ⟨b, m, hform.trans hb, (plain_bytes hneeds b (hb ▸ mem_cons_self)).2⟩

theorem tokens_form (s : Text) (h : Ends t) (n : Nat) :
    tokens (n + 1) (form doquote sharp s.1 ++ t) = s.bytes :: tokens n t := by
  have hscan : scan .plain (form doquote sharp s.1 ++ t) = (s.bytes, t) := scan_form s h
  obtain ⟨b, m, hform, hb⟩ := form_head doquote sharp s
  have hdrop : (b :: (m ++ t)).dropWhile isSep = b :: (m ++ t) := by
    rw [dropWhile_cons_of_neg (by rw [hb]; exact Bool.false_ne_true)]
  rw [hform, cons_append] at hscan ⊢
  rw [tokens, hdrop, if_neg (cons_ne_nil _ _), hscan]

theorem tokens_forms : ∀ (ss : List Text) (n : Nat), ss.length ≤ n →
    tokens n ([32].intercalate (ss.map fun s => form doquote sharp s.1)) = ss.map Text.bytes
  | [], n, _ => tokens_nil
  | [s], n, hn => by
    obtain ⟨n, rfl⟩ := Nat.exists_eq_succ_of_ne_zero (Nat.ne_of_gt hn)
    rw [map_singleton, intercalate_singleton, ← append_nil (form doquote sharp s.1),
      tokens_form s (by rintro b ⟨⟩), tokens_nil]
    rfl
  | s :: s' :: ss, n, hn => by
    obtain ⟨n, rfl⟩ := Nat.exists_eq_succ_of_ne_zero (Nat.ne_of_gt (lt_of_lt_of_le (Nat.succ_pos _) hn))
    have hends : ∀ x : Bytes, Ends ([32] ++ x) := by
      rintro x b ⟨⟩
      rfl
    have hspace : ∀ x : Bytes, tokens n ([32] ++ x) = tokens n x :=
      fun x => tokens_congr (dropWhile_cons_of_pos rfl) n
    have ih := tokens_forms (s' :: ss) n (Nat.le_of_succ_le_succ hn)
    rw [map_cons] at ih
    rw [map_cons, map_cons, intercalate_cons_cons, append_assoc, tokens_form s (hends _),
      hspace, ih]
    rfl

theorem mapM_quotestrfmt (doquote : Nat → Bool) (sharp : Bool) : ∀ ss : List Text,
    ((ss.map Text.bytes).mapM (quotestrfmt doquote sharp)).map (map flatten) =
      if ∀ s ∈ ss, (form doquote sharp s.1).length < 2 ^ 31 then some (ss.map fun s => form doquote sharp s.1)
      else none
  | [] => by
    rw [if_pos (by simp)]
    rfl
  | s :: ss => by
    have ih := mapM_quotestrfmt doquote sharp ss
    have hone := quotestrfmt_text doquote sharp s
    have hcons : (∀ x ∈ s :: ss, (form doquote sharp x.1).length < 2 ^ 31) ↔
        (form doquote sharp s.1).length < 2 ^ 31 ∧ ∀ x ∈ ss, (form doquote sharp x.1).length < 2 ^ 31 :=
      forall_mem_cons
    rw [map_cons, mapM_cons]
    by_cases hfit : (form doquote sharp s.1).length < 2 ^ 31
    · rw [if_pos hfit] at hone
      obtain ⟨us, hus, hflat⟩ := map_eq_some_iff.1 hone
      by_cases hall : ∀ s ∈ ss, (form doquote sharp s.1).length < 2 ^ 31
      · rw [if_pos hall] at ih
        obtain ⟨uss, huss, hflats⟩ := map_eq_some_iff.1 ih
        rw [hus, huss, if_pos (hcons.2 ⟨hfit, hall⟩), map_cons, ← hflat, ← hflats]
        rfl
      · rw [if_neg hall] at ih
        rw [hus, map_eq_none_iff.1 ih, if_neg fun h => hall (hcons.1 h).2]
        rfl
    · rw [if_neg hfit] at hone
      rw [map_eq_none_iff.1 hone, if_neg fun h => hfit (hcons.1 h).1]
      rfl

theorem command_text (doquote : Nat → Bool) (sharp : Bool) (ss : List Text) :
    command doquote sharp (ss.map Text.bytes) =
      if ∀ s ∈ ss, (form doquote sharp s.1).length < 2 ^ 31 then
        some ([32].intercalate (ss.map fun s => form doquote sharp s.1))
      else none := by
  have hmap : command doquote sharp (ss.map Text.bytes) =
      (((ss.map Text.bytes).mapM (quotestrfmt doquote sharp)).map (map flatten)).map
        ([32].intercalate ·) := by
    rw [Option.map_map]
    rfl
  rw [hmap, mapM_quotestrfmt]
  split_ifs <;> rfl

theorem encode_no_null (hc : Scalar c ∧ c ≠ 0) : 0 ∉ encode c := by
  intro h0
  rcases mem_encode hc.1 h0 with h | h
  · exact hc.2 h.symm
  · exact absurd h (by decide)

theorem mem_doubled {b : UInt8} (h : b ∈ doubled c) : b ∈ encode c := by
  unfold doubled twice at h
  split_ifs at h <;> simpa using h

theorem form_no_null (doquote : Nat → Bool) (sharp : Bool) (s : Text) : 0 ∉ form doquote sharp s.1 := by
  intro h
  unfold form at h
  split_ifs at h
  · rcases mem_cons.1 h with h | h
    · exact absurd h (by decide)
    · rcases mem_append.1 h with h | h
      · obtain ⟨c, hc, h⟩ := mem_flatMap.1 h
        exact encode_no_null (s.2 c hc) (mem_doubled h)
      · exact absurd (mem_singleton.1 h) (by decide)
  · obtain ⟨c, hc, h⟩ := mem_flatMap.1 h
    exact encode_no_null (s.2 c hc) h

theorem forms_no_null : ∀ ss : List Text, 0 ∉ [32].intercalate (ss.map fun s => form doquote sharp s.1)
  | [] => not_mem_nil
  | [s] => by
    rw [map_singleton, intercalate_singleton]
    exact form_no_null doquote sharp s
  | s :: s' :: ss => by
    have ih := forms_no_null (s' :: ss)
    rw [map_cons] at ih
    rw [map_cons, map_cons, intercalate_cons_cons]
    intro h
    rcases mem_append.1 h with h | h
    · rcases mem_append.1 h with h | h
      · exact form_no_null doquote sharp s h
      · exact absurd (mem_singleton.1 h) (by decide)
    · exact ih h

/-- The strings are read from their forms, as long as these are no longer than an `int` can say, and the pointers of
`parsecmd` are enough for the tokens and the nil. -/
def Quoting (doquote : Nat → Bool) (sharp : Bool) (ss : List Text) (p : Bytes) : Prop :=
  (∃ text, command doquote sharp (ss.map Text.bytes) = some text ∧ ∀ n Z, ss.length ≤ n →
    (tokenize (text ++ 0 :: Z) n).2.map (Tokenize.cstr (tokenize (text ++ 0 :: Z) n).1) = ss.map Text.bytes) ∧
  (parsecmd p).f.length < (parsecmd p).room ∧
    ∀ m, ncmdfield p - 1 ≤ m → tokenize (chomp p ++ [0]) m = tokenize (chomp p ++ [0]) (ncmdfield p - 1)

theorem Quoting.fits {ss : List Text} {p : Bytes} (h : Quoting doquote sharp ss p) :
    ∀ s ∈ ss, (form doquote sharp s.1).length < 2 ^ 31 := by
  obtain ⟨⟨text, htext, -⟩, -⟩ := h
  by_contra hfit
  rw [command_text, if_neg hfit] at htext
  exact some_ne_none _ htext.symm

theorem quoting_iff (doquote : Nat → Bool) (sharp : Bool) (ss : List Text) (p : Bytes) :
    Quoting doquote sharp ss p ↔ ∀ s ∈ ss, (form doquote sharp s.1).length < 2 ^ 31 := by
  refine ⟨Quoting.fits, fun hfit => ⟨⟨_, (command_text doquote sharp ss).trans (if_pos hfit), fun n Z hn => ?_⟩,
    parsecmd_room p⟩⟩
  rw [tokenize_spec (forms_no_null ss) Z n, tokens_forms ss n hn]

theorem doubled_length_ge : ∀ cs : List Nat, cs.length ≤ (cs.flatMap doubled).length
  | [] => le_rfl
  | c :: cs => by
    have := doubled_length_ge cs
    rw [flatMap_cons, length_append, doubled_length, length_cons]
    omega

theorem form_length_ge (doquote : Nat → Bool) (sharp : Bool) (s : Text) :
    s.1.length ≤ (form doquote sharp s.1).length := by
  by_cases h : needs doquote sharp s.1 = true
  · rw [form_length h]
    exact (doubled_length_ge s.1).trans (Nat.le_add_left _ _)
  · rw [form, if_neg h]
    exact length_le_encode s.1

/-- A string whose form is too long for an `int`. -/
def long : Text := ⟨replicate (2 ^ 31) 97, fun c hc => eq_of_mem_replicate hc ▸ by decide⟩

theorem not_quoting : ¬ Quoting (fun _ => false) false [long] [] := by
  intro h
  have hlen : long.1.length = 2 ^ 31 := length_replicate
  have hfit := h.fits long (mem_singleton.2 rfl)
  exact absurd (hlen ▸ form_length_ge _ false long) (Nat.not_le.2 hfit)

end Node9.Quote
