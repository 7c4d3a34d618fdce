import Node9.Fmt
import Node9.Numerals

/-!
# Dial strings (`dial.c`)

`_dial_string_parse` cuts `[netdir/]proto!rem` in place in a buffer of 128 bytes; `csdial` and `call` print the parts
into buffers of their own. `none` is a pointer that left the buffer. What the device files answer is in `CallEnv` and
`CsEnv`; the strings that are stored on the way are the result, with the size of the array each goes to.
-/

namespace Node9.Dial
open Buf Rune Fmt Numerals List Option

def Maxstring : Nat := 128
def Maxpath : Nat := 100
def NETPATHLEN : Nat := 40

/-- `/` -/
def slash : UInt8 := 47

/-- `!` -/
def bang : UInt8 := 33

/-- `#` -/
def sharp : UInt8 := 35

/-- The string at a pointer into a buffer. -/
def cstr (buf : Bytes) (i : Nat) : Bytes := (buf.drop i).takeWhile (· ≠ 0)

def strchr (s : Bytes) (c : UInt8) : Option Nat := if c ∈ s then some (s.idxOf c) else none

def strrchr (s : Bytes) (c : UInt8) : Option Nat := (strchr s.reverse c).map (s.length - 1 - ·)

/-- The pointers are into `buf`; a `proto` that is not is the literal `net`. -/
structure DS where
  buf : Bytes
  netdir : Option Nat
  proto : Option Nat
  rem : Nat

/-- `strncpy`, and the null at the end. -/
def copyIn (str : Bytes) : Bytes :=
  ((str ++ replicate Maxstring 0).take Maxstring).set (Maxstring - 1) 0

/-- The loop that goes back to the slash before `p2`. -/
def scanBack (buf : Bytes) : Nat → Option Nat
  | 0 => if buf.getD 0 0 = slash then some 0 else none
  | i + 1 => if buf.getD (i + 1) 0 = slash then some (i + 1) else scanBack buf i

def dialStringParse (str : Bytes) : Option DS :=
  let buf := copyIn str
  (strchr (cstr buf 0) bang).elim (some ⟨buf, none, none, 0⟩) fun p =>
    if buf.getD 0 0 ≠ slash ∧ buf.getD 0 0 ≠ sharp then some ⟨buf.set p 0, none, some 0, p + 1⟩
    else (scanBack buf p).map fun p2 => ⟨(buf.set p2 0).set p 0, some 0, some (p2 + 1), p + 1⟩

/-- `net` -/
def net : Bytes := [110, 101, 116]

def DS.netdirText (ds : DS) : Option Bytes := ds.netdir.map (cstr ds.buf)

def DS.protoText (ds : DS) : Bytes := ds.proto.elim net (cstr ds.buf)

def DS.remText (ds : DS) : Bytes := cstr ds.buf ds.rem

/-! ### The strings that are stored -/

/-- A string and the size of the array it is stored into. -/
structure Store where
  size : Nat
  text : Bytes

/-- There is room for the null, too. -/
def Store.Fits (s : Store) : Prop := s.text.length < s.size

structure Args where
  loc : Option Bytes
  dir : Bool

/-- What a call finds: whether `clone` opens, what is read from it, whether it takes the message, and whether the
data file opens. -/
structure CallEnv where
  clone : Bool
  name : Option Bytes
  connect : Bool
  data : Bool

inductive Rv
  | fd
  | bad
  | fault
deriving DecidableEq

/-- The decimal digits of a `long`. -/
def ld (v : BitVec 64) : Bytes := (if v.toInt < 0 then [45] else []) ++ ifmt 10 v.toInt.natAbs

/-- The clone file's text has no slash: `fault`, as `strrchr` gives no pointer to write through. -/
def call (clone dest : Bytes) (a : Args) (e : CallEnv) : List Store × Rv :=
  if e.clone = false then ([], .bad)
  else e.name.elim ([], .bad) fun n =>
    let n := n.take (Maxpath - 1)
    let name := sprint (literal (ld (BitVec.ofNat 64 (strtoul 0 ((cstr n 0).dropWhile (· = 32))).1)))
    let st : List Store := [⟨Maxpath, n⟩, ⟨Maxpath, name⟩]
    (strrchr clone slash).elim (st, .fault) fun p =>
      let clone := clone.take p
      let st := if a.dir then
          st ++ [⟨NETPATHLEN, snprint NETPATHLEN (copied clone ++ literal [slash] ++ copied name)⟩]
        else st
      let data := snprint Maxpath (copied clone ++ literal [slash] ++ copied name ++ literal [47, 100, 97, 116, 97])
      let connect := literal [99, 111, 110, 110, 101, 99, 116, 32] ++ copied dest ++
        a.loc.elim [] fun l => literal [32] ++ copied l
      let st := st ++ [⟨Maxpath, data⟩, ⟨Maxpath, snprint Maxpath connect⟩]
      (st, if e.connect = false then .bad else if e.data = false then .bad else .fd)

/-- The loop over the lines of the connection server. -/
def csLoop (a : Args) : List (Bytes × CallEnv) → List Store
  | [] => []
  | (line, e) :: rest =>
    let buf := line.take (Maxstring - 1)
    if buf = [] then []
    else ⟨Maxstring, buf⟩ :: (strchr (cstr buf 0) 32).elim (csLoop a rest) fun p =>
      let r := call (buf.take p) (cstr buf (p + 1)) a e
      r.1 ++ if r.2 = .bad then csLoop a rest else []

/-- Whether the connection server opens, the call without it, whether it takes the request, and its answers. -/
structure CsEnv where
  cs : Bool
  direct : CallEnv
  written : Bool
  lines : List (Bytes × CallEnv)

def csdial (netdir : Bytes) (ds : DS) (a : Args) (e : CsEnv) : List Store :=
  ⟨Maxstring, snprint Maxstring (copied netdir ++ literal [47, 99, 115])⟩ ::
    if e.cs = false then
      let clone := snprint Maxpath
        (copied netdir ++ literal [slash] ++ copied ds.protoText ++ literal [47, 99, 108, 111, 110, 101])
      ⟨Maxpath, clone⟩ :: (call clone ds.remText a e.direct).1
    else
      ⟨Maxstring, sprint (copied ds.protoText ++ literal [bang] ++ copied ds.remText)⟩ ::
        if e.written then csLoop a e.lines else []

/-- The directories that `kdial` tries: the one of the string, or `/net` and `/net.alt`. -/
def DS.netdirs (ds : DS) : List Bytes :=
  ds.netdirText.elim [[47, 110, 101, 116], [47, 110, 101, 116, 46, 97, 108, 116]] ([·])

/-! ### What they should be -/

/-- The pointers are into the buffer, which ends in a null. -/
def DS.Inside (ds : DS) : Prop :=
  ds.buf.length = Maxstring ∧ ds.buf.getD (Maxstring - 1) 0 = 0 ∧ ds.rem < Maxstring ∧
    (∀ i ∈ ds.netdir, i < Maxstring) ∧ ∀ i ∈ ds.proto, i < Maxstring

def DS.Reassembles (ds : DS) (s : Bytes) : Prop :=
  if bang ∈ s then (ds.netdirText.elim [] fun d => d ++ [slash]) ++ ds.protoText ++ bang :: ds.remText = s
  else ds.netdirText = none ∧ ds.protoText = net ∧ ds.remText = s

/-- The network and the address a string asks for. -/
def target (s : Bytes) : Bytes × Bytes :=
  if bang ∈ s then
    let a := s.takeWhile (· ≠ bang)
    (if a.head? = some slash ∨ a.head? = some sharp then (a.reverse.takeWhile (· ≠ slash)).reverse else a,
      (s.dropWhile (· ≠ bang)).tail)
  else (net, s)

variable {str a b c r z : Bytes}

theorem copyIn_eq (str : Bytes) :
    copyIn str = str.take 127 ++ 0 :: replicate (127 - str.length) 0 := by
  have hlen : ((str ++ replicate Maxstring 0).take Maxstring).length = 128 := by
    rw [length_take, length_append, length_replicate]
    exact min_eq_left (Nat.le_add_left _ _)
  have htake : (((str ++ replicate Maxstring 0).take Maxstring)).take 127 =
      str.take 127 ++ replicate (127 - str.length) 0 := by
    rw [take_take, take_append, take_replicate]
    congr 2
    show min (127 - str.length) 128 = 127 - str.length
    omega
  have hdrop : ((str ++ replicate Maxstring 0).take Maxstring).drop 128 = [] := drop_eq_nil_of_le hlen.le
  unfold copyIn
  rw [set_eq_take_append_cons_drop, if_pos (by rw [hlen]; decide)]
  show _ ++ 0 :: ((str ++ replicate Maxstring 0).take Maxstring).drop 128 = _
  rw [show Maxstring - 1 = 127 from rfl, htake, hdrop, append_assoc, ← replicate_succ',
    replicate_succ]

theorem cstr_append (hb : NoNull b) (a z : Bytes) : cstr (a ++ (b ++ 0 :: z)) a.length = b := by
  rw [cstr, drop_left]
  exact takeWhile_noNull hb z

theorem strchr_append {x : UInt8} (h : x ∉ a) (r : Bytes) : strchr (a ++ x :: r) x = some a.length := by
  rw [strchr, if_pos (by simp), idxOf_append_of_notMem h, idxOf_cons_self, add_zero]

theorem scanBack_none {buf : Bytes} : ∀ {i : Nat}, (∀ j ≤ i, buf.getD j 0 ≠ slash) → scanBack buf i = none
  | 0, h => if_neg (h 0 le_rfl)
  | i + 1, h => by
    rw [scanBack, if_neg (h (i + 1) le_rfl)]
    exact scanBack_none fun j hj => h j (Nat.le_succ_of_le hj)

theorem scanBack_some {buf : Bytes} {k : Nat} (hk : buf.getD k 0 = slash) :
    ∀ {i : Nat}, k ≤ i → (∀ j, k < j → j ≤ i → buf.getD j 0 ≠ slash) → scanBack buf i = some k
  | 0, hi, _ => by
    obtain rfl := Nat.le_zero.1 hi
    exact if_pos hk
  | i + 1, hi, h => by
    rcases Nat.eq_or_lt_of_le hi with rfl | hlt
    · exact if_pos hk
    · rw [scanBack, if_neg (h (i + 1) hlt le_rfl)]
      exact scanBack_some hk (Nat.le_of_lt_succ hlt) fun j h1 h2 => h j h1 (Nat.le_succ_of_le h2)

theorem getD_ne {l w : Bytes} {x : UInt8} (h : x ∉ l) {j : Nat} (hj : j < l.length) : (l ++ w).getD j 0 ≠ x := by
  rw [getD_append _ _ _ _ hj, getD_eq_getElem _ _ hj]
  exact fun heq => h (heq ▸ getElem_mem hj)

theorem parse_plain (hs : NoNull str) (h : bang ∉ str.take 127) :
    dialStringParse str = some ⟨copyIn str, none, none, 0⟩ := by
  have hstr : cstr (copyIn str) 0 = str.take 127 := by
    rw [copyIn_eq]
    exact cstr_append (fun x hx => hs x (mem_of_mem_take hx)) [] _
  rw [dialStringParse, hstr, strchr, if_neg h]
  rfl

theorem parse_bang (hs : NoNull str) (ht : str.take 127 = a ++ bang :: r) (ha : bang ∉ a) : dialStringParse str =
    if (copyIn str).getD 0 0 ≠ slash ∧ (copyIn str).getD 0 0 ≠ sharp then
      some ⟨(copyIn str).set a.length 0, none, some 0, a.length + 1⟩
    else (scanBack (copyIn str) a.length).map fun p2 =>
      ⟨((copyIn str).set p2 0).set a.length 0, some 0, some (p2 + 1), a.length + 1⟩ := by
  have hstr : cstr (copyIn str) 0 = str.take 127 := by
    rw [copyIn_eq]
    exact cstr_append (fun x hx => hs x (mem_of_mem_take hx)) [] _
  rw [dialStringParse, hstr, ht, strchr_append ha]
  rfl

theorem first_iff (ht : str.take 127 = a ++ bang :: r) {x : UInt8} (hx : x ≠ bang) :
    (copyIn str).getD 0 0 = x ↔ a.head? = some x := by
  rw [copyIn_eq, ht]
  rcases a with _ | ⟨y, a⟩
  · exact iff_of_false (fun h => hx h.symm) (by simp)
  · exact ⟨fun h => congrArg some h, fun h => some.inj h⟩

theorem set_at {l w : Bytes} {x : UInt8} (n : Nat) (hn : l.length = n) : (l ++ x :: w).set n 0 = l ++ 0 :: w := by
  rw [set_append_right _ _ hn.le, hn, tsub_self]
  rfl

/-- What the parser has made of a string that it parses. -/
structure Parsed (str : Bytes) (ds : DS) : Prop where
  inside : ds.Inside
  reassembles : ds.Reassembles (str.take 127)
  target : (ds.protoText, ds.remText) = target (str.take 127)

theorem takeWhile_bang (ha : bang ∉ a) (r : Bytes) : (a ++ bang :: r).takeWhile (· ≠ bang) = a := by
  have hne : ∀ x ∈ a, decide (x ≠ bang) = true := by
    intro x hx
    exact decide_eq_true fun h => ha (h ▸ hx)
  rw [takeWhile_append_of_pos hne]
  simp

theorem target_bang (ha : bang ∉ a) (r : Bytes) : target (a ++ bang :: r) =
    (if a.head? = some slash ∨ a.head? = some sharp then (a.reverse.takeWhile (· ≠ slash)).reverse else a, r) := by
  have hne : ∀ x ∈ a, decide (x ≠ bang) = true := by
    intro x hx
    exact decide_eq_true fun h => ha (h ▸ hx)
  have hdrop : (a ++ bang :: r).dropWhile (· ≠ bang) = bang :: r := by
    rw [dropWhile_append_of_pos hne]
    simp
  rw [target, if_pos (by simp), takeWhile_bang ha, hdrop]
  rfl

/-- The buffer has its size and ends in a null. -/
def Padded (buf : Bytes) : Prop := buf.length = Maxstring ∧ buf.getD (Maxstring - 1) 0 = 0

theorem padded_copyIn (str : Bytes) : Padded (copyIn str) := by
  have hlen : ((str ++ replicate Maxstring 0).take Maxstring).length = 128 := by
    rw [length_take, length_append, length_replicate]
    exact min_eq_left (Nat.le_add_left _ _)
  refine ⟨(length_set ..).trans hlen, ?_⟩
  rw [copyIn, getD_eq_getElem?_getD, getElem?_set_self (by rw [hlen]; decide)]
  rfl

theorem Padded.set {buf : Bytes} (h : Padded buf) (i : Nat) : Padded (buf.set i 0) := by
  refine ⟨(length_set ..).trans h.1, ?_⟩
  rw [getD_eq_getElem?_getD, getElem?_set]
  split_ifs
  · rfl
  · rfl
  · rw [← getD_eq_getElem?_getD]
    exact h.2

theorem take_length (ht : str.take 127 = a) : a.length ≤ 127 := by
  rw [← ht, length_take]
  exact Nat.min_le_left _ _

section
variable (hs : NoNull str)
include hs

theorem NoNull.of_take (ht : str.take 127 = a ++ b) : NoNull a ∧ NoNull b := by
  have hall : NoNull (a ++ b) := fun x hx => hs x (mem_of_mem_take (ht ▸ hx))
  exact ⟨fun x hx => hall x (mem_append_left b hx), fun x hx => hall x (mem_append_right a hx)⟩

theorem parsed_plain (h : bang ∉ str.take 127) : ∃ ds, dialStringParse str = some ds ∧
    Parsed str ds := by
  have hrem : cstr (copyIn str) 0 = str.take 127 := by
    rw [copyIn_eq]
    exact cstr_append (fun x hx => hs x (mem_of_mem_take hx)) [] _
  obtain ⟨hlen, hlast⟩ := padded_copyIn str
  refine ⟨_, parse_plain hs h, ⟨hlen, hlast, show 0 < 128 by decide, ?_, ?_⟩, ?_, ?_⟩
  · rintro i ⟨⟩
  · rintro i ⟨⟩
  · rw [DS.Reassembles, if_neg h]
    exact ⟨rfl, rfl, hrem⟩
  · rw [target, if_neg h]
    exact congrArg (net, ·) hrem

theorem parsed_proto (ht : str.take 127 = a ++ bang :: r) (ha : bang ∉ a) (h1 : a.head? ≠ some slash)
    (h2 : a.head? ≠ some sharp) : ∃ ds, dialStringParse str = some ds ∧ Parsed str ds := by
  have hparse := parse_bang hs ht ha
  rw [if_pos ⟨mt (first_iff ht (by decide)).1 h1, mt (first_iff ht (by decide)).1 h2⟩] at hparse
  obtain ⟨hna, hnr⟩ := NoNull.of_take hs ht
  have hbuf : (copyIn str).set a.length 0 = a ++ 0 :: (r ++ 0 :: replicate (127 - str.length) 0) := by
    rw [copyIn_eq, ht, append_assoc]
    exact set_at a.length rfl
  obtain ⟨hlen, hlast⟩ := (padded_copyIn str).set a.length
  have hle := take_length ht
  rw [length_append, length_cons] at hle
  have hproto : cstr ((copyIn str).set a.length 0) 0 = a := by
    rw [hbuf]
    exact cstr_append hna [] _
  have hrem : cstr ((copyIn str).set a.length 0) (a.length + 1) = r := by
    rw [hbuf]
    have := cstr_append (a := a ++ [0]) (b := r) (fun x hx => hnr x (mem_cons_of_mem _ hx))
      (replicate (127 - str.length) 0)
    rwa [length_append, append_assoc] at this
  refine ⟨_, hparse, ⟨hlen, hlast, show a.length + 1 < 128 by omega, ?_, ?_⟩, ?_, ?_⟩
  · rintro i ⟨⟩
  · rintro i ⟨⟩
    decide
  · rw [DS.Reassembles, if_pos (by rw [ht]; simp), ht]
    exact congrArg₂ (fun x y => x ++ bang :: y) hproto hrem
  · rw [ht, target_bang ha, if_neg (not_or.2 ⟨h1, h2⟩)]
    exact congrArg₂ Prod.mk hproto hrem

theorem parsed_netdir (ht : str.take 127 = (b ++ slash :: c) ++ bang :: r)
    (ha : bang ∉ b ++ slash :: c) (hc : slash ∉ c)
    (hhead : (b ++ slash :: c).head? = some slash ∨ (b ++ slash :: c).head? = some sharp) :
    ∃ ds, dialStringParse str = some ds ∧ Parsed str ds := by
  have hparse := parse_bang hs ht ha
  have hcopy : copyIn str = b ++ slash :: (c ++ bang :: (r ++ 0 :: replicate (127 - str.length) 0)) := by
    rw [copyIn_eq, ht]
    simp
  have hfirst : ¬ ((copyIn str).getD 0 0 ≠ slash ∧ (copyIn str).getD 0 0 ≠ sharp) := by
    rintro ⟨h1, h2⟩
    rcases hhead with h | h
    · exact h1 ((first_iff ht (by decide)).2 h)
    · exact h2 ((first_iff ht (by decide)).2 h)
  have hback : scanBack (copyIn str) (b ++ slash :: c).length = some b.length := by
    refine scanBack_some ?_ (by simp) fun j h1 h2 => ?_
    · rw [hcopy, getD_append_right _ _ _ _ le_rfl, tsub_self]
      rfl
    obtain ⟨k, rfl⟩ := Nat.exists_eq_add_of_lt h1
    rw [length_append, length_cons] at h2
    rw [hcopy, getD_append_right _ _ _ _ h1.le, show b.length + k + 1 - b.length = k + 1 by omega,
      getD_cons_succ]
    rcases lt_or_ge k c.length with hk | hk
    · exact getD_ne hc hk
    · rw [getD_append_right _ _ _ _ hk, show k - c.length = 0 by omega]
      exact (by decide : bang ≠ slash)
  rw [if_neg hfirst, hback, map_some] at hparse
  obtain ⟨hna, hnr⟩ := NoNull.of_take hs ht
  have hnb : NoNull b := fun x hx => hna x (mem_append_left _ hx)
  have hnc : NoNull c := fun x hx => hna x (mem_append_right _ (mem_cons_of_mem _ hx))
  have hnr' : NoNull r := fun x hx => hnr x (mem_cons_of_mem _ hx)
  have hbuf : ((copyIn str).set b.length 0).set (b ++ slash :: c).length 0 =
      b ++ 0 :: (c ++ 0 :: (r ++ 0 :: replicate (127 - str.length) 0)) := by
    rw [hcopy, set_at b.length rfl]
    have := set_at (l := b ++ 0 :: c) (w := r ++ 0 :: replicate (127 - str.length) 0) (x := bang)
      (b ++ slash :: c).length (by simp)
    rwa [append_assoc, append_assoc] at this
  obtain ⟨hlen, hlast⟩ := ((padded_copyIn str).set b.length).set (b ++ slash :: c).length
  rw [hbuf] at hlen hlast hparse
  have hle := take_length ht
  rw [length_append, length_append, length_cons, length_cons] at hle
  have hdir : cstr (b ++ 0 :: (c ++ 0 :: (r ++ 0 :: replicate (127 - str.length) 0))) 0 = b :=
    cstr_append hnb [] _
  have hproto : cstr (b ++ 0 :: (c ++ 0 :: (r ++ 0 :: replicate (127 - str.length) 0))) (b.length + 1) = c := by
    have := cstr_append (a := b ++ [0]) hnc (r ++ 0 :: replicate (127 - str.length) 0)
    rwa [length_append, append_assoc] at this
  have hrem : cstr (b ++ 0 :: (c ++ 0 :: (r ++ 0 :: replicate (127 - str.length) 0)))
      ((b ++ slash :: c).length + 1) = r := by
    have := cstr_append (a := b ++ 0 :: (c ++ [0])) hnr' (replicate (127 - str.length) 0)
    rw [length_append, length_cons, length_append, length_singleton] at this
    rw [length_append, length_cons]
    simpa [add_assoc] using this
  refine ⟨_, hparse, ⟨hlen, hlast, ?_, ?_, ?_⟩, ?_, ?_⟩
  · show (b ++ slash :: c).length + 1 < 128
    rw [length_append, length_cons]
    omega
  · rintro i ⟨⟩
    decide
  · rintro i ⟨⟩
    show b.length + 1 < 128
    omega
  · rw [DS.Reassembles, if_pos (by rw [ht]; simp), ht]
    show (cstr _ 0 ++ [slash]) ++ cstr _ (b.length + 1) ++ bang :: cstr _ _ = _
    rw [hdir, hproto, hrem, append_assoc b]
    rfl
  · have hne : ∀ x ∈ c.reverse, decide (x ≠ slash) = true := by
      intro x hx
      exact decide_eq_true fun h => hc (h ▸ mem_reverse.1 hx)
    have hrev : ((b ++ slash :: c).reverse.takeWhile (· ≠ slash)).reverse = c := by
      rw [reverse_append, reverse_cons, append_assoc, takeWhile_append_of_pos hne]
      simp
    rw [ht, target_bang ha, if_pos hhead, hrev]
    exact congrArg₂ Prod.mk hproto hrem

theorem parse_sharp (ht : str.take 127 = a ++ bang :: r) (ha : bang ∉ a) (hsl : slash ∉ a)
    (hhead : a.head? = some sharp) : dialStringParse str = none := by
  have hparse := parse_bang hs ht ha
  have hfirst : ¬ ((copyIn str).getD 0 0 ≠ slash ∧ (copyIn str).getD 0 0 ≠ sharp) :=
    fun h => h.2 ((first_iff ht (by decide)).2 hhead)
  have hback : scanBack (copyIn str) a.length = none := by
    refine scanBack_none fun j hj => ?_
    rw [copyIn_eq, ht, append_assoc]
    rcases lt_or_ge j a.length with hlt | hge
    · exact getD_ne hsl hlt
    · rw [getD_append_right _ _ _ _ hge, Nat.sub_eq_zero_of_le hj]
      exact (by decide : bang ≠ slash)
  rw [hparse, if_neg hfirst, hback]
  rfl

end

/-- A `#` that is followed by a `!` has a slash before it. -/
def Slashed (s : Bytes) : Prop := s.head? = some sharp → bang ∈ s → slash ∈ s.takeWhile (· ≠ bang)

/-- The parser ends inside the buffer exactly for these strings, and then its parts are the string. -/
theorem parse_iff (hs : NoNull str) :
    (Slashed (str.take 127) → ∃ ds, dialStringParse str = some ds ∧ Parsed str ds) ∧
      (¬ Slashed (str.take 127) → dialStringParse str = none) := by
  by_cases hbang : bang ∈ str.take 127
  case neg => exact ⟨fun _ => parsed_plain hs hbang, fun h => absurd (fun _ hin => absurd hin hbang) h⟩
  obtain ⟨a, r, ht, ha⟩ := eq_append_cons_of_mem hbang
  have hhead : (str.take 127).head? = some sharp ↔ a.head? = some sharp := by
    rw [ht]
    rcases a with _ | ⟨y, a⟩
    · exact iff_of_false (by simp [bang, sharp]) (by simp)
    · exact Iff.rfl
  have hsl : Slashed (str.take 127) ↔ (a.head? = some sharp → slash ∈ a) := by
    rw [Slashed, hhead, ht, takeWhile_bang ha]
    exact ⟨fun h hh => h hh (by simp), fun h hh _ => h hh⟩
  rw [hsl]
  by_cases h1 : a.head? = some slash ∨ a.head? = some sharp
  · by_cases hin : slash ∈ a
    · refine ⟨fun _ => ?_, fun h => absurd (fun _ => hin) h⟩
      obtain ⟨c, b, hcb, hc⟩ := eq_append_cons_of_mem (mem_reverse.2 hin)
      have hab : a = b.reverse ++ slash :: c.reverse := by
        rw [← reverse_reverse a, hcb]
        simp
      rw [hab] at ht ha h1
      exact parsed_netdir hs ht ha (fun h => hc (mem_reverse.1 h)) h1
    · have hsharp : a.head? = some sharp := by
        rcases h1 with h1 | h1
        · exact absurd (mem_of_mem_head? (mem_def.2 h1)) hin
        · exact h1
      exact ⟨fun h => absurd (h hsharp) hin, fun _ => parse_sharp hs ht ha hin hsharp⟩
  · obtain ⟨h1, h2⟩ := not_or.1 h1
    exact ⟨fun _ => parsed_proto hs ht ha h1 h2, fun h => absurd (fun hh => absurd hh h2) h⟩

theorem ld_length (v : BitVec 64) : (ld v).length ≤ 20 := by
  have habs : v.toInt.natAbs < 10 ^ 19 := by
    have h1 := v.toInt_lt
    have h2 := v.le_toInt
    omega
  have hnum : (ifmt 10 v.toInt.natAbs).length ≤ 19 := ifmt_length_le (by decide) (by decide) habs
  have hsign : (if v.toInt < 0 then [45] else [] : Bytes).length ≤ 1 := by split_ifs <;> decide
  rw [ld, length_append]
  omega

theorem fits_snprint {len : Nat} (h : 0 < len) (us : List Bytes) : Store.Fits ⟨len, snprint len us⟩ := snprint_lt h us

theorem fits_take {len : Nat} (h : 0 < len) (s : Bytes) : Store.Fits ⟨len, s.take (len - 1)⟩ := by
  show (s.take (len - 1)).length < len
  rw [length_take]
  omega

theorem fits_number (v : BitVec 64) : Store.Fits ⟨Maxpath, sprint (literal (ld v))⟩ := by
  have hlen := ld_length v
  show (sprint (literal (ld v))).length < 100
  rw [sprint_eq (by rw [literal_flatten]; omega), literal_flatten]
  omega

theorem call_fits (clone dest : Bytes) (x : Args) (e : CallEnv) : ∀ s ∈ (call clone dest x e).1, s.Fits := by
  unfold call
  by_cases hopen : e.clone = false
  · rw [if_pos hopen]
    intro s hs
    exact absurd hs not_mem_nil
  rw [if_neg hopen]
  cases e.name with
  | none =>
    intro s hs
    exact absurd hs not_mem_nil
  | some n =>
    have hfirst : ∀ s ∈ ([⟨Maxpath, n.take (Maxpath - 1)⟩, ⟨Maxpath, sprint (literal
        (ld (BitVec.ofNat 64 (strtoul 0 ((cstr (n.take (Maxpath - 1)) 0).dropWhile (· = 32))).1)))⟩] : List Store),
          s.Fits := by
      intro s hs
      rcases mem_cons.1 hs with rfl | hs
      · exact fits_take (by decide) n
      · rw [mem_singleton.1 hs]
        exact fits_number _
    dsimp only [elim_some]
    cases strrchr clone slash with
    | none => exact hfirst
    | some p =>
      dsimp only [elim_some]
      intro s hs
      rcases mem_append.1 hs with hs | hs
      · split_ifs at hs
        · rcases mem_append.1 hs with hs | hs
          · exact hfirst s hs
          · rw [mem_singleton.1 hs]
            exact fits_snprint (by decide) _
        · exact hfirst s hs
      · rcases mem_cons.1 hs with rfl | hs
        · exact fits_snprint (by decide) _
        · rw [mem_singleton.1 hs]
          exact fits_snprint (by decide) _

theorem csLoop_fits (x : Args) : ∀ (lines : List (Bytes × CallEnv)), ∀ s ∈ csLoop x lines, s.Fits
  | [], s, hs => absurd hs not_mem_nil
  | (line, e) :: rest, s, hs => by
    rw [csLoop] at hs
    dsimp only at hs
    split_ifs at hs with hnil
    · exact absurd hs not_mem_nil
    rcases mem_cons.1 hs with rfl | hs
    · exact fits_take (by decide) line
    cases hp : strchr (cstr (line.take (Maxstring - 1)) 0) 32 with
    | none =>
      rw [hp] at hs
      exact csLoop_fits x rest s hs
    | some p =>
      rw [hp] at hs
      rcases mem_append.1 hs with hs | hs
      · exact call_fits _ _ x e s hs
      · split_ifs at hs
        · exact csLoop_fits x rest s hs
        · exact absurd hs not_mem_nil

theorem csdial_fits_iff (ds : DS) (x : Args) (hlen : ds.protoText.length + ds.remText.length ≤ 2 ^ 20) :
    (∀ netdir ∈ ds.netdirs, ∀ e, ∀ s ∈ csdial netdir ds x e, s.Fits) ↔
      (copied ds.protoText).flatten.length + 1 + (copied ds.remText).flatten.length < Maxstring := by
  have hsum : (copied ds.protoText ++ literal [bang] ++ copied ds.remText).flatten.length =
      (copied ds.protoText).flatten.length + 1 + (copied ds.remText).flatten.length := by
    rw [flatten_append, flatten_append, literal_flatten, length_append, length_append]
    rfl
  have hp := copied_length_le ds.protoText
  have hr := copied_length_le ds.remText
  have hsprint : sprint (copied ds.protoText ++ literal [bang] ++ copied ds.remText) =
      (copied ds.protoText ++ literal [bang] ++ copied ds.remText).flatten := sprint_eq (by rw [hsum]; omega)
  rw [← hsum]
  constructor
  · intro h
    obtain ⟨d, hd⟩ : ∃ d, d ∈ ds.netdirs := by
      unfold DS.netdirs
      cases ds.netdirText with
      | none => exact ⟨_, mem_cons_self⟩
      | some d => exact ⟨d, mem_singleton_self d⟩
    have hfit : Store.Fits ⟨Maxstring, sprint (copied ds.protoText ++ literal [bang] ++ copied ds.remText)⟩ :=
      h d hd ⟨true, ⟨false, none, false, false⟩, false, []⟩ _ (mem_cons_of_mem _ mem_cons_self)
    rw [hsprint] at hfit
    exact hfit
  intro h netdir _ e s hs
  unfold csdial at hs
  rcases mem_cons.1 hs with rfl | hs
  · exact fits_snprint (by decide) _
  split_ifs at hs with hcs hw
  · rcases mem_cons.1 hs with rfl | hs
    · exact fits_snprint (by decide) _
    · exact call_fits _ _ x _ s hs
  · rcases mem_cons.1 hs with rfl | hs
    · rw [hsprint]
      exact h
    · exact csLoop_fits x _ s hs
  · rw [mem_singleton.1 hs, hsprint]
    exact h

/-- A dial string is parsed and all strings that are made from it fit exactly if a `#` is followed by a slash before
the `!`, and what the connection server is asked for, as `%s` prints it, is shorter than the buffer. -/
theorem dial_iff (x : Args) (str : Bytes) (hs : NoNull str) :
    (∃ ds, dialStringParse str = some ds ∧ ds.Inside ∧ ds.Reassembles (str.take 127) ∧
      ∀ netdir ∈ ds.netdirs, ∀ e, ∀ s ∈ csdial netdir ds x e, s.Fits) ↔
    Slashed (str.take 127) ∧ (copied (target (str.take 127)).1).flatten.length + 1 +
      (copied (target (str.take 127)).2).flatten.length < Maxstring := by
  obtain ⟨hgood, hbad⟩ := parse_iff hs
  by_cases hsl : Slashed (str.take 127)
  case neg => exact iff_of_false (by rw [hbad hsl]; simp) fun h => hsl h.1
  obtain ⟨ds, hparse, hin, hre, htarget⟩ := hgood hsl
  have hlen : ds.protoText.length + ds.remText.length ≤ 2 ^ 20 := by
    have hle := take_length (rfl : str.take 127 = str.take 127)
    unfold DS.Reassembles at hre
    split_ifs at hre with hbang
    · have := congrArg length hre
      rw [length_append, length_append, length_cons] at this
      omega
    · rw [hre.2.1, hre.2.2]
      exact le_trans (Nat.add_le_add_left hle _) (by decide)
  have hiff := csdial_fits_iff ds x hlen
  rw [← htarget]
  constructor
  · rintro ⟨ds', hparse', -, -, hfits⟩
    obtain rfl : ds = ds' := some.inj (hparse.symm.trans hparse')
    exact ⟨hsl, hiff.1 hfits⟩
  · rintro ⟨-, hfit⟩
    exact ⟨ds, hparse, hin, hre, hiff.2 hfit⟩

/-- `tcp!h` -/
theorem dial_iff_tcp : ∃ ds, dialStringParse [116, 99, 112, 33, 104] = some ds ∧ ds.Inside ∧
    ds.Reassembles [116, 99, 112, 33, 104] ∧
      ∀ netdir ∈ ds.netdirs, ∀ e, ∀ s ∈ csdial netdir ds ⟨none, false⟩ e, s.Fits :=
  (dial_iff ⟨none, false⟩ [116, 99, 112, 33, 104] (by simp [NoNull])).2
    ⟨by intro h; exact absurd h (by decide), by decide⟩

/-- In `#!` the scan for the slash leaves the buffer. -/
theorem not_dial : ¬ ∃ ds, dialStringParse [35, 33] = some ds := by
  rintro ⟨ds, hds⟩
  have hnone : dialStringParse [35, 33] = none := by decide
  rw [hnone] at hds
  cases hds

end Node9.Dial
