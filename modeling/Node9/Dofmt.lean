import Node9.Fmt
import Node9.Numerals

/-!
# Formatted printing (`dofmt.c`, `fmt.c` and `fmtdef.h` of lib9, and `vsnprint`, `vseprint` and `vsmprint`)

A `Fmt` of the source is here a conversion (`Conv`), which `_fmtdispatch` reads from the format, and a buffer (`Out`).
The count of what is written (`nfmt`) is left out, and with it what `%n` stores. `int` and `ulong` have 32 and 64 bits,
and `int` wraps. `err` is the error string that `%r` prints.

A store outside a buffer has no result: `Res.stray`, and `none` in `_ifmt`.
-/

namespace Node9.Dofmt
open Buf Rune

def int32 (x : Int) : Int := (BitVec.ofInt 32 x).toInt

structure Flags where
  width : Bool := false
  left : Bool := false
  prec : Bool := false
  sharp : Bool := false
  space : Bool := false
  sign : Bool := false
  zero : Bool := false
  unsigned : Bool := false
  short : Bool := false
  long : Bool := false
  vlong : Bool := false
  comma : Bool := false
  byte : Bool := false

structure Conv where
  flags : Flags := {}
  width : Int := 0
  prec : Int := 0
  r : Nat := 0

/-- A string, without the null at its end. -/
abbrev CString := {s : Bytes // 0 ∉ s}

abbrev RuneString := {s : List UInt32 // 0 ∉ s}

/-- An argument: the word, and the string that it points to. -/
structure Arg where
  word : BitVec 64
  str : Option CString
  runes : Option RuneString

/-- A `va_list`. -/
abbrev Args := Nat → Arg

def Args.next (args : Args) : Args := fun i => args (i + 1)

/-- What is between `start` and `to`, and where `stop` is; `grows` is a `flush` that is `fmtStrFlush`. -/
structure Out where
  text : Bytes
  stop : Nat
  size : Nat
  grows : Bool

inductive Res
  | stray
  /-- -1 is returned -/
  | fail (o : Out)
  | done (o : Out)

def Res.andThen : Res → (Out → Res) → Res
  | stray, _ => stray
  | fail o, _ => fail o
  | done o, k => k o

def Res.ignore : Res → Res
  | fail o => done o
  | x => x

/-- `*t++ = c` for each byte. -/
def put (o : Out) (u : Bytes) : Res :=
  if o.text.length + u.length ≤ o.size then .done { o with text := o.text ++ u } else .stray

def fmtStrFlush (o : Out) : Out := { o with stop := o.size + 256 - 1, size := o.size + 256 }

def fmtflush (o : Out) (len : Nat) : Res :=
  if o.grows = false then .fail { o with stop := o.text.length }
  else
    let o := fmtStrFlush o
    if o.text.length + len > o.stop then .fail { o with stop := o.text.length } else .done o

/-- `FMTCHAR` -/
def fmtchar (c : UInt8) (o : Out) : Res :=
  (if o.text.length + 1 > o.stop then fmtflush o 1 else .done o).andThen fun o => put o [c]

def runeBytes (r : Nat) : Bytes := if r < Runeself then [UInt8.ofNat r] else (runetochar r).1

/-- `FMTRUNE` -/
def fmtrune (r : Nat) (o : Out) : Res :=
  (if o.text.length + UTFmax > o.stop ∧ o.text.length + runelen r > o.stop then fmtflush o (runelen r)
    else .done o).andThen fun o => put o (runeBytes r)

/-- In the loop of `dofmt`, a character of the format that has bytes from 0x80 on. -/
def fmtliteral (u : Bytes) (o : Out) : Res :=
  (if o.text.length + u.length > o.stop then fmtflush o u.length else .done o).andThen fun o => put o u

def padLoop : Nat → Out → Res
  | 0, o => .done o
  | n + 1, o => (fmtchar 32 o).andThen (padLoop n)

def fmtpad (n : Int) (o : Out) : Res := padLoop n.toNat o

/-- The loop of `_fmtcpy`; `left` is `me - m`. -/
def cpyLoop : Nat → Bytes → Nat → Out → Res
  | 0, _, _, o => .done o
  | nc + 1, m, left, o =>
    let r := (m.getD 0 0).toNat
    if r < Runeself then (fmtrune r o).andThen (cpyLoop nc m.tail (left - 1))
    else if left ≥ UTFmax ∨ fullrune m left then
      (fmtrune (chartorune m).1 o).andThen (cpyLoop nc (m.drop (chartorune m).2) (left - (chartorune m).2))
    else .done o

/-- `n` cut to the precision. -/
def Conv.cut (c : Conv) (n : Int) : Int := if c.flags.prec ∧ n > c.prec then c.prec else n

/-- The padding before and after `n` characters. -/
def Conv.before (c : Conv) (n : Int) : Int := if c.flags.left then 0 else int32 (c.width - n)

def Conv.after (c : Conv) (n : Int) : Int := if c.flags.left then int32 (c.width - n) else 0

def fmtcpy (c : Conv) (m : Bytes) (n : Int) (sz : Nat) (o : Out) : Res :=
  (fmtpad (c.before (c.cut n)) o).andThen fun o =>
    (cpyLoop (c.cut n).toNat m sz o).andThen (fmtpad (c.after (c.cut n)))

def rcpyLoop : List UInt32 → Out → Res
  | [], o => .done o
  | r :: m, o => (fmtrune r.toNat o).andThen (rcpyLoop m)

def fmtrcpy (c : Conv) (m : List UInt32) (n : Int) (o : Out) : Res :=
  (fmtpad (c.before (c.cut n)) o).andThen fun o =>
    (rcpyLoop (m.take (c.cut n).toNat) o).andThen (fmtpad (c.after (c.cut n)))

def charfmt (c : Conv) (w : BitVec 64) (o : Out) : Res :=
  fmtcpy { c with prec := 1 } [UInt8.ofNat w.toNat] 1 1 o

def runefmt (c : Conv) (w : BitVec 64) (o : Out) : Res := fmtrcpy c [UInt32.ofNat w.toNat] 1 o

def nilText : Bytes := [60, 110, 105, 108, 62]

/-- The loop of `utflen`, with at least as many turns as `s` has bytes. -/
def utfCount : Nat → Bytes → Nat
  | 0, _ => 0
  | _ + 1, [] => 0
  | fuel + 1, b :: s =>
    if b.toNat < Runeself then utfCount fuel s + 1 else utfCount fuel ((b :: s).drop (chartorune (b :: s)).2) + 1

def utflen (s : Bytes) : Nat := utfCount s.length s

/-- The loop of `utfnlen`, for `m` bytes. -/
def utfnCount : Nat → Bytes → Nat → Nat
  | 0, _, _ => 0
  | _ + 1, _, 0 => 0
  | _ + 1, [], _ => 0
  | fuel + 1, b :: s, m + 1 =>
    if b.toNat < Runeself then utfnCount fuel s m + 1
    else if fullrune (b :: s) (m + 1 : Nat) then
      utfnCount fuel ((b :: s).drop (chartorune (b :: s)).2) (m + 1 - (chartorune (b :: s)).2) + 1
    else 0

def utfnlen (s : Bytes) (m : Nat) : Nat := utfnCount s.length s m

def fmtstrcpy (c : Conv) (s : Option CString) (o : Out) : Res :=
  match s with
  | none => fmtcpy c nilText 5 5 o
  | some s =>
    if c.flags.prec then
      let i := min c.prec.toNat s.1.length
      fmtcpy c s.1 (utfnlen s.1 i) i o
    else fmtcpy c s.1 (utflen s.1) s.1.length o

def fmtrunestrcpy (c : Conv) (s : Option RuneString) (o : Out) : Res :=
  match s with
  | none => fmtcpy c nilText 5 5 o
  | some s =>
    let n := if c.flags.prec then min c.prec.toNat s.1.length else s.1.length
    fmtrcpy c s.1 n o

def percentfmt (c : Conv) (o : Out) : Res := fmtrcpy { c with prec := 1 } [UInt32.ofNat c.r] 1 o

def errfmt (err : CString) (c : Conv) (o : Out) : Res := fmtcpy c err.1 (utflen err.1) err.1.length o

/-- `_badfmt`: what `_fmtcpy` returns is ignored. -/
def badfmt (c : Conv) (o : Out) : Res :=
  (fmtcpy { c with prec := 3 } [37, UInt8.ofNat c.r, 37] 3 3 o).ignore

def radix (r : Nat) : Option Nat :=
  if r = 'd'.toNat then some 10
  else if r = 'x'.toNat ∨ r = 'X'.toNat then some 16
  else if r = 'b'.toNat then some 2
  else if r = 'o'.toNat then some 8
  else none

/-- `"0123456789ABCDEF"` for `X` -/
def conv (r d : Nat) : UInt8 :=
  if r = 'X'.toNat ∧ 10 ≤ d then UInt8.ofNat (55 + d) else Numerals.conv d

/-- The argument, of the size that the flags say, as `u` or `vu`. -/
def Flags.take (fl : Flags) (w : BitVec 64) : BitVec 64 :=
  if fl.vlong ∨ fl.long then w
  else if fl.byte then if fl.unsigned then (w.setWidth 8).setWidth 64 else (w.setWidth 8).signExtend 64
  else if fl.short then if fl.unsigned then (w.setWidth 16).setWidth 64 else (w.setWidth 16).signExtend 64
  else if fl.unsigned then (w.setWidth 32).setWidth 64 else (w.setWidth 32).signExtend 64

/-- `*p-- = c`; `t` is what is behind `p` in `buf[70]`. -/
def store (c : UInt8) (t : Bytes) : Option Bytes := if t.length < 70 then some (c :: t) else none

/-- The loop over the digits, with a turn for each. -/
def digits (r base : Nat) (comma : Bool) : Nat → Nat → Nat × Bytes → Option (Nat × Bytes)
  | 0, _, _ => none
  | fuel + 1, u, (n, t) =>
    if u = 0 then some (n, t)
    else
      (if comma ∧ n % 4 = 3 then (store 44 t).map fun t => (n + 1, t) else some (n, t)).bind fun x =>
        (store (conv r (u % base)) x.2).bind fun t => digits r base comma fuel (u / base) (x.1 + 1, t)

/-- `for(; n < w && p > buf+3; n++) *p-- = '0'`, in at most so many turns. -/
def zeros (w : Int) : Nat → Nat × Bytes → Nat × Bytes
  | 0, x => x
  | fuel + 1, (n, t) => if n < w ∧ t.length < 66 then zeros w fuel (n + 1, 48 :: t) else (n, t)

/-- `_ifmt` up to `_fmtcpy`: `n`, and what is behind `p`. -/
def itext (fl : Flags) (c : Conv) (base : Nat) (u : BitVec 64) : Option (Nat × Bytes) :=
  let neg := !fl.unsigned && u.msb
  let u := if neg then -u else u
  (digits c.r base fl.comma 65 u.toNat (0, [])).bind fun x =>
    (if x.1 = 0 then (store 48 x.2).map fun t => (1, t) else some x).bind fun x =>
      let x := zeros c.prec 66 x
      let n := if neg || fl.sign || fl.space then x.1 + 1 else x.1
      let sharp := fl.sharp && !(base = 8 && x.2.head? = some 48)
      let n := if sharp then if base = 16 then n + 2 else if base = 8 then n + 1 else n else n
      let x := if fl.zero && !fl.left then zeros c.width 66 (n, x.2) else (n, x.2)
      (if sharp && base = 16 then store (UInt8.ofNat c.r) x.2 else some x.2).bind fun t =>
        (if sharp && (base = 16 || base = 8) then store 48 t else some t).bind fun t =>
          (if neg then store 45 t else if fl.sign then store 43 t else if fl.space then store 32 t
            else some t).map fun t => (x.1, t)

/-- `_ifmt`, for the argument `u` and the flags in `fl`. -/
def fmtnum (fl : Flags) (c : Conv) (u : BitVec 64) (o : Out) : Res :=
  match radix c.r with
  | none => .fail o
  | some base =>
    match itext fl c base u with
    | none => .stray
    | some (n, t) =>
      fmtcpy { c with flags := { c.flags with prec := false }, width := if fl.zero && !fl.left then 0 else c.width } t n n o

def ifmt (c : Conv) (w : BitVec 64) (o : Out) : Res :=
  if c.r = 'p'.toNat then fmtnum { c.flags with unsigned := true } { c with r := 'x'.toNat } w o
  else fmtnum c.flags c (c.flags.take w) o

/-- `_flagfmt` -/
def flagfmt (fl : Flags) (r : Nat) : Option Flags :=
  if r = ','.toNat then some { fl with comma := true }
  else if r = '-'.toNat then some { fl with left := true }
  else if r = '+'.toNat then some { fl with sign := true }
  else if r = '#'.toNat then some { fl with sharp := true }
  else if r = ' '.toNat then some { fl with space := true }
  else if r = 'u'.toNat then some { fl with unsigned := true }
  else if r = 'h'.toNat then some { fl with byte := fl.byte || fl.short, short := true }
  else if r = 'l'.toNat then some { fl with vlong := fl.vlong || fl.long, long := true }
  else none

/-- `numflag:` -/
def Conv.number (c : Conv) (i : Int) : Conv :=
  if c.flags.width then { c with flags := { c.flags with prec := true }, prec := i }
  else { c with flags := { c.flags with width := true }, width := i }

def isdigit (b : UInt8) : Bool := 48 ≤ b && b ≤ 57

def decimal (s : Bytes) : Int := s.foldl (fun i b => int32 (int32 (i * 10) + b.toNat - 48)) 0

/-- `_fmtdispatch` up to the call of the verb: the conversion and what is left. `none` is the end of the format. There
are at least as many turns as bytes in the format. -/
def dispatch : Nat → Conv → Args → Bytes → Option (Conv × Args × Bytes)
  | 0, _, _, _ => none
  | fuel + 1, c, args, fmt =>
    let r := (chartorune fmt).1
    let rest := fmt.drop (chartorune fmt).2
    let c := { c with r }
    if r = 0 then none
    else if r = '.'.toNat then
      dispatch fuel { c with flags := { c.flags with width := true, prec := true } } args rest
    else if r = '0'.toNat ∧ c.flags.width = false then
      dispatch fuel { c with flags := { c.flags with zero := true } } args rest
    else if '0'.toNat ≤ r ∧ r ≤ '9'.toNat then
      dispatch fuel (c.number (decimal (fmt.takeWhile isdigit))) args (fmt.dropWhile isdigit)
    else if r = '*'.toNat then
      let i := int32 (args 0).word.toInt
      let c := if i < 0 then { c with flags := { c.flags with left := true } } else c
      dispatch fuel (c.number (if i < 0 then int32 (-i) else i)) args.next rest
    else
      match flagfmt c.flags r with
      | some flags => dispatch fuel { c with flags } args rest
      | none => some (c, args, rest)

/-- The verbs that take an argument. -/
def takes (r : Nat) : Bool :=
  r ∈ ['d', 'x', 'X', 'b', 'o', 'p', 'c', 'C', 's', 'S', 'n'].map Char.toNat

/-- The verb of the table `knownfmt`. -/
def verb (err : CString) (c : Conv) (a : Arg) (o : Out) : Res :=
  if c.r ∈ ['d', 'x', 'X', 'b', 'o', 'p'].map Char.toNat then ifmt c a.word o
  else if c.r = 'c'.toNat then charfmt c a.word o
  else if c.r = 'C'.toNat then runefmt c a.word o
  else if c.r = 's'.toNat then fmtstrcpy c a.str o
  else if c.r = 'S'.toNat then fmtrunestrcpy c a.runes o
  else if c.r = '%'.toNat then percentfmt c o
  else if c.r = 'n'.toNat then .done o
  else if c.r = 'r'.toNat then errfmt err c o
  else badfmt c o

/-- The loop of `dofmt`, with at least as many turns as the format has bytes. -/
def dofmt (err : CString) : Nat → Args → Bytes → Out → Res
  | 0, _, _, o => .done o
  | _ + 1, _, [], o => .done o
  | fuel + 1, args, b :: fmt, o =>
    if b = 0 then .done o
    else if b = 37 then
      match dispatch fmt.length {} args fmt with
      | none => .fail o
      | some (c, args, rest) =>
        (verb err c (args 0) o).andThen (dofmt err fuel (if takes c.r then args.next else args) rest)
    else if b.toNat < Runeself then (fmtchar b o).andThen (dofmt err fuel args fmt)
    else
      let n := (chartorune (b :: fmt)).2
      (fmtliteral ((b :: fmt).take n) o).andThen (dofmt err fuel args ((b :: fmt).drop n))

/-- The stores in the buffer, and what is returned. -/
def vsnprint (err : CString) (len : Int) (fmt : Bytes) (args : Args) : Option (Bytes × Int) :=
  if len ≤ 0 then some ([], -1)
  else
    match dofmt err fmt.length args fmt ⟨[], len.toNat - 1, len.toNat, false⟩ with
    | .stray => none
    | .fail o | .done o =>
      if o.text.length < o.size then some (o.text ++ [0], o.text.length) else none

/-- Pointers are addresses here; nil is `none`. -/
def vseprint (err : CString) (buf e : Nat) (fmt : Bytes) (args : Args) : Option (Bytes × Option Nat) :=
  if e ≤ buf then some ([], none)
  else
    match dofmt err fmt.length args fmt ⟨[], e - 1 - buf, e - buf, false⟩ with
    | .stray => none
    | .fail o | .done o =>
      if o.text.length < o.size then some (o.text ++ [0], some (buf + o.text.length)) else none

def fmtstrinit : Out := ⟨[], 31, 32, true⟩

/-- Nil is `none` in the result. -/
def vsmprint (err : CString) (fmt : Bytes) (args : Args) : Option (Option Bytes) :=
  match dofmt err fmt.length args fmt fmtstrinit with
  | .stray => none
  | .fail _ => some none
  | .done o => if o.text.length < o.size then some (some o.text) else none

end Node9.Dofmt
