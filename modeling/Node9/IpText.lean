import Node9.Numerals

/-!
# The text of IP addresses (`ipaux.c`)

An address is printed as eight groups in base 16, with the longest run of zero groups left out, or in decimal if it
is a version 4 address; a mask is printed as the number of its bits. `parseip` fills the array from the left and at
the end moves what came after `::` to the right. A write behind the array is `none`.
-/

namespace Node9.IpText
open Buf Numerals List
open Option hiding mem_map

/-- `uchar ip[16]` -/
abbrev Addr : Type := { a : Bytes // a.length = 16 }

def v4prefix : Bytes := [0, 0, 0, 0, 0, 0, 0, 0, 0, 0, 0xff, 0xff]

/-- The group at the bytes `2 * k` and `2 * k + 1`. -/
def group (p : Bytes) (k : Nat) : Nat := ((p.getD (2 * k) 0).toNat <<< 8) + (p.getD (2 * k + 1) 0).toNat

/-- `%d.%d.%d.%d` -/
def ifmtV4 (a b c d : UInt8) : Bytes :=
  ifmt 10 a.toNat ++ 46 :: (ifmt 10 b.toNat ++ 46 :: (ifmt 10 c.toNat ++ 46 :: ifmt 10 d.toNat))

/-- From `j` on to the first group that is not zero. -/
def zeroRun (p : Bytes) : Nat → Nat → Nat
  | 0, j => j
  | fuel + 1, j =>
    if j < 8 then
      if p.getD (2 * j) 0 ≠ 0 ∨ p.getD (2 * j + 1) 0 ≠ 0 then j else zeroRun p fuel (j + 1)
    else j

/-- The longest elision: `eli` and `eln` in groups, -1 as `none`. -/
def findElision (p : Bytes) : Nat → Nat → Option (Nat × Nat) → Option (Nat × Nat)
  | 0, _, best => best
  | fuel + 1, i, best =>
    let j := zeroRun p 8 i
    findElision p fuel (i + 1)
      (if j > i ∧ best.all (fun e => e.2 < j - i) then some (i, j - i) else best)

def colon : UInt8 := 58

/-- The groups from `i` on, with the elision. -/
def printLoop (p : Bytes) (el : Option (Nat × Nat)) : Nat → Nat → Bytes
  | 0, _ => []
  | fuel + 1, i =>
    if i < 8 then
      if el.map Prod.fst = some i then
        let i := i + (el.map Prod.snd).getD 0
        [colon, colon] ++ if i ≥ 8 then [] else ifmt 16 (group p i) ++ printLoop p el fuel (i + 1)
      else (if i ≠ 0 then [colon] else []) ++ (ifmt 16 (group p i) ++ printLoop p el fuel (i + 1))
    else []

/-- The text in `buf`. -/
def v6text (p : Bytes) : Bytes := printLoop p (findElision p 8 0 none) 8 0

/-- `%I` -/
def eipfmtI (p : Bytes) : Bytes :=
  if p.take 12 = v4prefix then ifmtV4 (p.getD 12 0) (p.getD 13 0) (p.getD 14 0) (p.getD 15 0)
  else v6text p

/-- The leading bits of `v` for `m` from `2 ^ k` down: how many, and what is left of `v`. -/
def maskBits : Nat → Nat → Nat × Nat
  | 0, v => (0, v)
  | k + 1, v =>
    if v &&& 2 ^ k = 0 then (0, v) else ((maskBits k (v - 2 ^ k)).1 + 1, (maskBits k (v - 2 ^ k)).2)

/-- `%M` -/
def eipfmtM (p : Bytes) : Bytes :=
  let i := (p.takeWhile (· = 0xff)).length
  if (p.drop (i + 1)).any (· ≠ 0) then eipfmtI p
  else if i < 16 then
    let r := maskBits 8 (p.getD i 0).toNat
    if r.2 ≠ 0 then eipfmtI p else 47 :: ifmt 10 (8 * i + r.1)
  else 47 :: ifmt 10 (8 * i)

/-- `ip[k] = b` -/
def poke (ip : Bytes) (k : Nat) (b : UInt8) : Option Bytes := if k < ip.length then some (ip.set k b) else none

/-- The loop of `v4parseip` at `to + off`: the array, `i` and `p`. -/
def v4Loop (off : Nat) : Nat → Nat → Bytes → Bytes → Option (Bytes × Nat × Bytes)
  | 0, i, ip, p => some (ip, i, p)
  | fuel + 1, i, ip, p =>
    if p = [] then some (ip, i, p)
    else
      let r := strtoul 0 p
      (poke ip (off + i) (UInt8.ofNat r.1)).bind fun ip =>
        v4Loop off fuel (i + 1) ip (if r.2.head? = some 46 then r.2.tail else r.2)

/-- The class of the address says where the bytes go that are there. -/
def v4parseip (off : Nat) (ip str : Bytes) : Option (Bytes × Bytes) :=
  (v4Loop off 4 0 ip str).bind fun r =>
    let b k := r.1.getD (off + k) 0
    let cls := (b 0).toNat >>> 6
    if cls ≤ 1 ∧ r.2.1 = 3 then
      (poke r.1 (off + 3) (b 2)).bind fun t => (poke t (off + 2) (b 1)).bind fun t =>
        (poke t (off + 1) 0).map fun t => (t, r.2.2)
    else if cls ≤ 1 ∧ r.2.1 = 2 then
      (poke r.1 (off + 3) (b 1)).bind fun t => (poke t (off + 1) 0).map fun t => (t, r.2.2)
    else if cls = 2 ∧ r.2.1 = 3 then
      (poke r.1 (off + 3) (b 2)).bind fun t => (poke t (off + 2) 0).map fun t => (t, r.2.2)
    else some (r.1, r.2.2)

/-- An `int` of four bytes, as an `unsigned long`. -/
def nhgetl (a b c d : UInt8) : BitVec 64 := (a.toBitVec ++ b.toBitVec ++ c.toBitVec ++ d.toBitVec).signExtend 64

/-- What the loop of `parseip` has at its end. -/
structure Parse where
  i : Nat
  ip : Bytes
  elipsis : Nat
  v4 : Bool

def parseLoop : Nat → Bytes → Parse → Option Parse
  | 0, _, s => some s
  | fuel + 1, p, s =>
    if s.i < 16 ∧ p ≠ [] then
      let r := strtoul 16 p
      if r.2.head? = some 46 ∨ r.2 = [] ∧ s.i = 0 then
        (v4parseip s.i s.ip p).map fun t => { s with i := s.i + 4, ip := t.1 }
      else
        let ip := (s.ip.set s.i (UInt8.ofNat (r.1 >>> 8))).set (s.i + 1) (UInt8.ofNat r.1)
        if r.2.head? = some colon then
          if r.2.tail.head? = some colon then parseLoop fuel r.2.tail.tail ⟨s.i + 2, ip, s.i + 2, false⟩
          else parseLoop fuel r.2.tail ⟨s.i + 2, ip, s.elipsis, false⟩
        else parseLoop fuel r.2 ⟨s.i + 2, ip, s.elipsis, s.v4⟩
    else some s

def memmove (t : Bytes) (dst src n : Nat) : Bytes := t.take dst ++ (t.drop src).take n ++ t.drop (dst + n)

def memset (t : Bytes) (dst n : Nat) : Bytes := t.take dst ++ replicate n 0 ++ t.drop (dst + n)

/-- The bytes behind the elision go to the end. -/
def spread (s : Parse) : Bytes :=
  if s.i < 16 then
    memset (memmove s.ip (s.elipsis + 16 - s.i) s.elipsis (s.i - s.elipsis)) s.elipsis (16 - s.i)
  else s.ip

def parseip (str : Bytes) : Option (Bytes × BitVec 64) :=
  (parseLoop 8 str ⟨0, replicate 16 0, 0, true⟩).map fun s =>
    if s.v4 then
      let t := ((spread s).set 11 0xff).set 10 0xff
      (t, nhgetl (t.getD 12 0) (t.getD 13 0) (t.getD 14 0) (t.getD 15 0))
    else (spread s, 6)

/-- The mask of `i` bits: the bytes with all bits, and the one with some. -/
def prefixBits (i : Nat) : Bytes :=
  let t := replicate (i / 8) 0xff ++ replicate (16 - i / 8) 0
  if i % 8 > 0 then t.set (i / 8) (UInt8.ofNat (255 - (2 ^ (8 - i % 8) - 1))) else t

def parseipmask (str : Bytes) : Option (Bytes × BitVec 64) :=
  if str.head? = some 47 then
    let i := atoi str.tail
    let i := if i < 0 then 0 else i
    let t := prefixBits (if i > 128 then 128 else i).toNat
    some (t, nhgetl (t.getD 12 0) (t.getD 13 0) (t.getD 14 0) (t.getD 15 0))
  else (parseip str).map fun r =>
    (if r.1.take 12 = v4prefix then replicate 12 0xff ++ r.1.drop 12 else r.1, r.2)

def pair (g : Nat) : Bytes := [UInt8.ofNat (g >>> 8), UInt8.ofNat g]

def bytesOf (gs : List Nat) : Bytes := gs.flatMap pair

/-- The groups from `i` on. -/
def seg (p : Bytes) (i n : Nat) : List Nat := (range' i n).map (group p)

def tailText (gs : List Nat) : Bytes := gs.flatMap fun g => colon :: ifmt 16 g

theorem tailText_cons (g : Nat) (gs : List Nat) : tailText (g :: gs) = colon :: (ifmt 16 g ++ tailText gs) := rfl

/-- The groups with colons between them. -/
def join : List Nat → Bytes
  | [] => []
  | g :: gs => ifmt 16 g ++ tailText gs

variable {p : Bytes} {i j m e fuel : Nat} {gs : List Nat} {el : Option (Nat × Nat)}

theorem seg_succ (p : Bytes) (i n : Nat) : seg p i (n + 1) = group p i :: seg p (i + 1) n := rfl

theorem seg_append (p : Bytes) (i m n : Nat) : seg p i (m + n) = seg p i m ++ seg p (i + m) n := by
  rw [seg, ← range'_append_1, map_append]
  rfl

@[simp] theorem seg_length (p : Bytes) (i n : Nat) : (seg p i n).length = n := by
  rw [seg, length_map, length_range']

theorem bytesOf_append (l l' : List Nat) : bytesOf (l ++ l') = bytesOf l ++ bytesOf l' := flatMap_append

theorem bytesOf_length : ∀ (gs : List Nat), (bytesOf gs).length = 2 * gs.length
  | [] => rfl
  | g :: gs => by
    have := bytesOf_length gs
    rw [bytesOf, flatMap_cons, length_append, length_cons]
    show 2 + (bytesOf gs).length = _
    omega

theorem bytesOf_zeros : ∀ (m : Nat), bytesOf (replicate m 0) = replicate (2 * m) 0
  | 0 => rfl
  | m + 1 => by
    show [0, 0] ++ bytesOf (replicate m 0) = _
    rw [bytesOf_zeros m, show 2 * (m + 1) = 2 * m + 1 + 1 by omega]
    rfl

theorem group_lt (p : Bytes) (k : Nat) : group p k < 65536 := by
  have h1 := (p.getD (2 * k) 0).toNat_lt
  have h2 := (p.getD (2 * k + 1) 0).toNat_lt
  rw [group, Nat.shiftLeft_eq]
  omega

theorem pair_group (p : Bytes) (k : Nat) : pair (group p k) = [p.getD (2 * k) 0, p.getD (2 * k + 1) 0] := by
  have h1 := (p.getD (2 * k) 0).toNat_lt
  have h2 := (p.getD (2 * k + 1) 0).toNat_lt
  have hhigh : group p k >>> 8 = (p.getD (2 * k) 0).toNat := by
    rw [group, Nat.shiftLeft_eq, Nat.shiftRight_eq_div_pow]
    omega
  have hlow : UInt8.ofNat (group p k) = p.getD (2 * k + 1) 0 := by
    apply UInt8.toNat_inj.1
    rw [UInt8.toNat_ofNat', group, Nat.shiftLeft_eq]
    omega
  rw [pair, hhigh, UInt8.ofNat_toNat, hlow]

theorem take_add_two (h : j + 2 ≤ p.length) : p.take (j + 2) = p.take j ++ [p.getD j 0, p.getD (j + 1) 0] := by
  rw [getD_eq_getElem _ _ (by omega), getD_eq_getElem _ _ (by omega),
    take_succ_eq_append_getElem (by omega), take_succ_eq_append_getElem (by omega), append_assoc]
  rfl

theorem bytesOf_seg : ∀ (n : Nat), 2 * n ≤ p.length → bytesOf (seg p 0 n) = p.take (2 * n)
  | 0, _ => rfl
  | n + 1, h => by
    have hone : bytesOf (seg p n 1) = pair (group p n) := append_nil _
    rw [seg_append, bytesOf_append, bytesOf_seg n (by omega), zero_add, hone, pair_group,
      show 2 * (n + 1) = 2 * n + 2 by omega, take_add_two (by omega)]

theorem zeroRun_spec (p : Bytes) : ∀ (fuel j : Nat), j ≤ 8 → j ≤ zeroRun p fuel j ∧ zeroRun p fuel j ≤ 8 ∧
    ∀ k, j ≤ k → k < zeroRun p fuel j → group p k = 0
  | 0, j, h => ⟨le_rfl, h, fun k h1 h2 => absurd h2 (Nat.not_lt.2 h1)⟩
  | fuel + 1, j, h => by
    rw [zeroRun]
    split_ifs with hj hne
    · exact ⟨le_rfl, h, fun k h1 h2 => absurd h2 (Nat.not_lt.2 h1)⟩
    · obtain ⟨h1, h2, h3⟩ := zeroRun_spec p fuel (j + 1) hj
      obtain ⟨hz1, hz2⟩ := not_or.1 hne
      refine ⟨Nat.le_of_succ_le h1, h2, fun k hk hk' => ?_⟩
      rcases Nat.eq_or_lt_of_le hk with rfl | hlt
      · rw [group, not_not.1 hz1, not_not.1 hz2]
        rfl
      · exact h3 k hlt hk'
    · exact ⟨le_rfl, h, fun k h1 h2 => absurd h2 (Nat.not_lt.2 h1)⟩

/-- The elision that was found leaves out zeros only. -/
def Elides (p : Bytes) (el : Option (Nat × Nat)) : Prop :=
  ∀ e m, el = some (e, m) → 1 ≤ m ∧ e + m ≤ 8 ∧ ∀ k, e ≤ k → k < e + m → group p k = 0

theorem elides_find : ∀ (fuel i : Nat) (best : Option (Nat × Nat)), i + fuel ≤ 8 → Elides p best →
    Elides p (findElision p fuel i best)
  | 0, _, _, _, h => h
  | fuel + 1, i, best, hi, h => by
    rw [findElision]
    refine elides_find fuel (i + 1) _ (by omega) ?_
    split_ifs with hbetter
    · obtain ⟨h1, h2, h3⟩ := zeroRun_spec p 8 i (by omega)
      rintro e m ⟨⟩
      have hgt := hbetter.1
      refine ⟨by omega, by omega, fun k hk hk' => h3 k hk ?_⟩
      omega
    · exact h

theorem elides (p : Bytes) : Elides p (findElision p 8 0 none) :=
  elides_find 8 0 none le_rfl (by rintro e m ⟨⟩)

theorem printLoop_after : ∀ (fuel i : Nat), (∀ x ∈ el, x.1 < i) → 0 < i → i ≤ 8 → 8 ≤ i + fuel →
    printLoop p el fuel i = tailText (seg p i (8 - i))
  | 0, i, _, _, hi, hf => by
    obtain rfl : i = 8 := by omega
    rfl
  | fuel + 1, i, hel, hpos, hi, hf => by
    have hno : el.map Prod.fst ≠ some i := by
      intro heq
      obtain ⟨x, hx, rfl⟩ := map_eq_some_iff.1 heq
      exact absurd (hel x hx) (lt_irrefl _)
    by_cases h8 : i < 8
    · rw [printLoop, if_pos h8, if_neg hno, if_pos (Nat.ne_of_gt hpos),
        printLoop_after fuel (i + 1) (fun x hx => Nat.lt_succ_of_lt (hel x hx)) (Nat.succ_pos i) h8 (by omega),
        show 8 - i = (8 - (i + 1)) + 1 by omega, seg_succ, tailText_cons]
      rfl
    · rw [printLoop, if_neg h8, show 8 - i = 0 by omega]
      rfl

theorem printLoop_at (hm : 1 ≤ m) (he : e + m ≤ 8) (hf : 8 ≤ e + fuel) (hlt : e < 8) :
    printLoop p (some (e, m)) fuel e = colon :: colon :: join (seg p (e + m) (8 - (e + m))) := by
  obtain ⟨fuel, rfl⟩ := Nat.exists_eq_succ_of_ne_zero (show fuel ≠ 0 by omega)
  have hat : (some (e, m)).map Prod.fst = some e := rfl
  rw [printLoop, if_pos hlt, if_pos hat]
  dsimp only [map_some, getD_some]
  split_ifs with hend
  · rw [show 8 - (e + m) = 0 by omega]
    rfl
  · rw [printLoop_after fuel (e + m + 1) (fun x hx => by obtain rfl := Option.some.inj hx; show e < _; omega) (by omega)
      (by omega) (by omega), show 8 - (e + m) = (8 - (e + m + 1)) + 1 by omega, seg_succ]
    rfl

theorem printLoop_before (hm : 1 ≤ m) (he : e + m ≤ 8) : ∀ (fuel i : Nat), 0 < i → i ≤ e → 8 ≤ i + fuel →
    printLoop p (some (e, m)) fuel i =
      tailText (seg p i (e - i)) ++ colon :: colon :: join (seg p (e + m) (8 - (e + m)))
  | 0, i, hpos, hi, hf => absurd hf (by omega)
  | fuel + 1, i, hpos, hi, hf => by
    rcases Nat.eq_or_lt_of_le hi with rfl | hlt
    · rw [printLoop_at hm he hf (by omega), Nat.sub_self]
      rfl
    · have hno : (some (e, m)).map Prod.fst ≠ some i := fun h => absurd (Option.some.inj h) (Nat.ne_of_gt hlt)
      rw [printLoop, if_pos (show i < 8 by omega), if_neg hno, if_pos (Nat.ne_of_gt hpos),
        printLoop_before hm he fuel (i + 1) (Nat.succ_pos i) hlt (by omega),
        show e - i = (e - (i + 1)) + 1 by omega, seg_succ, tailText_cons]
      simp

theorem v6text_cases (p : Bytes) : v6text p = join (seg p 0 8) ∨ ∃ e m, 1 ≤ m ∧ e + m ≤ 8 ∧
    (∀ k, e ≤ k → k < e + m → group p k = 0) ∧
      v6text p = join (seg p 0 e) ++ colon :: colon :: join (seg p (e + m) (8 - (e + m))) := by
  have hel := elides p
  unfold v6text
  generalize findElision p 8 0 none = best at hel ⊢
  rcases best with _ | ⟨e, m⟩
  · refine .inl ?_
    rw [printLoop, if_pos (by decide), if_neg (by simp), if_neg (by decide),
      printLoop_after 7 1 (by rintro x ⟨⟩) (by decide) (by decide) (by decide)]
    rfl
  obtain ⟨h1, h2, h3⟩ := hel e m rfl
  refine .inr ⟨e, m, h1, h2, h3, ?_⟩
  rcases Nat.eq_zero_or_pos e with rfl | hpos
  · exact printLoop_at h1 h2 (by decide) (by decide)
  have hno : (some (e, m)).map Prod.fst ≠ some 0 := fun h => absurd (Option.some.inj h) (Nat.ne_of_gt hpos)
  rw [printLoop, if_pos (by decide), if_neg hno, if_neg (by decide),
    printLoop_before h1 h2 7 1 (by decide) hpos (by decide)]
  obtain ⟨e, rfl⟩ := Nat.exists_eq_succ_of_ne_zero (Nat.ne_of_gt hpos)
  rw [seg_succ, join]
  simp

/-! ### The groups are read again -/

/-- The bytes in `done` are read, and the rest of the array is 0. -/
def st (done : Bytes) (el : Nat) (v4 : Bool) : Parse :=
  ⟨done.length, done ++ replicate (16 - done.length) 0, el, v4⟩

variable {done L R t : Bytes} {g n : Nat} {v4 : Bool}

theorem put_pair (h : done.length + 2 ≤ 16) (a b : UInt8) :
    ((done ++ replicate (16 - done.length) 0).set done.length a).set (done.length + 1) b =
      (done ++ [a, b]) ++ replicate (16 - (done.length + 2)) 0 := by
  have hn : 16 - done.length = 16 - (done.length + 2) + 1 + 1 := by omega
  rw [hn, replicate_succ, replicate_succ, set_append_right _ _ le_rfl, tsub_self,
    set_append_right _ _ (Nat.le_add_right _ 1), Nat.add_sub_cancel_left, append_assoc]
  rfl

theorem st_pair (h : done.length + 2 ≤ 16) (g el : Nat) (v4 : Bool) :
    (⟨done.length + 2, ((done ++ replicate (16 - done.length) 0).set done.length (UInt8.ofNat (g >>> 8))).set
      (done.length + 1) (UInt8.ofNat g), el, v4⟩ : Parse) = st (done ++ pair g) el v4 := by
  have hlen : (done ++ pair g).length = done.length + 2 := length_append
  rw [put_pair h, st, hlen]
  rfl

theorem digitVal_colon : digitVal colon = none := by decide

structure Hextet (w : Bytes) (g : Nat) : Prop where
  digits : ∀ c ∈ w, (digit 16 c).isSome = true
  length : 0 < w.length ∧ w.length ≤ 4
  value : strtoul 16 w = (g, [])

theorem hextet_ifmt (hg : g < 65536) : Hextet (ifmt 16 g) g := by
  obtain ⟨d, ds, htext, hlt, -, -⟩ := exists_digits (show 1 < 16 by decide) g
  have hread := strtoul_ifmt (b := 16) (by decide) le_rfl (lt_trans hg (by decide)) stops_nil
  rw [append_nil] at hread
  refine ⟨fun c hc => ?_, ⟨length_pos_of_ne_nil ifmt_ne_nil, ?_⟩, hread⟩
  · rw [htext] at hc
    obtain ⟨x, hx, rfl⟩ := mem_map.1 hc
    rw [digit_conv (hlt x hx) le_rfl]
    rfl
  · exact ifmt_length_le (by decide) (by decide) hg

namespace Hextet
variable {w : Bytes} (hw : Hextet w g)
include hw

theorem ne_nil : w ≠ [] := ne_nil_of_length_pos hw.length.1

theorem append_ne_nil (t : Bytes) : w ++ t ≠ [] := append_ne_nil_of_left_ne_nil hw.ne_nil _

theorem read (ht : Stops t) : strtoul 16 (w ++ t) = (g, t) := strtoul_append hw.ne_nil hw.value ht

theorem head (t : Bytes) : (w ++ t).head? ≠ some colon := by
  obtain ⟨c, r, rfl⟩ := exists_cons_of_ne_nil hw.ne_nil
  intro hc
  have hdigit := hw.digits c mem_cons_self
  rw [Option.some.inj hc] at hdigit
  exact absurd hdigit (by decide)

end Hextet

variable {w : Bytes}

theorem parse_colon (hw : Hextet w g) (h : done.length + 2 ≤ 16) {t : Bytes} (ht : t.head? ≠ some colon) (fuel : Nat) :
    parseLoop (fuel + 1) (w ++ colon :: t) (st done e v4) = parseLoop fuel t (st (done ++ pair g) e false) := by
  have hgo : (st done e v4).i < 16 ∧ w ++ colon :: t ≠ [] :=
    ⟨show done.length < 16 by omega, hw.append_ne_nil _⟩
  have hno : ¬((colon :: t).head? = some 46 ∨ colon :: t = [] ∧ (st done e v4).i = 0) := by
    rintro (h46 | ⟨hnil, -⟩)
    · exact absurd (Option.some.inj h46) (by decide)
    · exact cons_ne_nil _ _ hnil
  rw [parseLoop, if_pos hgo, hw.read (stops_cons digitVal_colon t)]
  dsimp only
  rw [if_neg hno, head?_cons, if_pos rfl, tail_cons, if_neg ht]
  exact congrArg (parseLoop fuel t) (st_pair h g e false)

theorem parse_elide (hw : Hextet w g) (h : done.length + 2 ≤ 16) (t : Bytes) (fuel : Nat) :
    parseLoop (fuel + 1) (w ++ colon :: colon :: t) (st done e v4) =
      parseLoop fuel t (st (done ++ pair g) (done.length + 2) false) := by
  have hgo : (st done e v4).i < 16 ∧ w ++ colon :: colon :: t ≠ [] :=
    ⟨show done.length < 16 by omega, hw.append_ne_nil _⟩
  have hno : ¬((colon :: colon :: t).head? = some 46 ∨ colon :: colon :: t = [] ∧ (st done e v4).i = 0) := by
    rintro (h46 | ⟨hnil, -⟩)
    · exact absurd (Option.some.inj h46) (by decide)
    · exact cons_ne_nil _ _ hnil
  rw [parseLoop, if_pos hgo, hw.read (stops_cons digitVal_colon _)]
  dsimp only
  rw [if_neg hno, head?_cons, if_pos rfl, tail_cons, head?_cons, if_pos rfl]
  exact congrArg (parseLoop fuel t) (st_pair h g (done.length + 2) false)

theorem parseLoop_nil (fuel : Nat) (s : Parse) : parseLoop fuel [] s = some s := by
  rcases fuel with _ | fuel
  · rfl
  · rw [parseLoop, if_neg fun h => h.2 rfl]

theorem parse_last (hw : Hextet w g) (h : done.length + 2 ≤ 16) (hdone : done ≠ []) (fuel : Nat) :
    parseLoop (fuel + 1) w (st done e v4) = some (st (done ++ pair g) e v4) := by
  have hgo : (st done e v4).i < 16 ∧ w ++ [] ≠ [] :=
    ⟨show done.length < 16 by omega, hw.append_ne_nil _⟩
  have hno : ¬(([] : Bytes).head? = some 46 ∨ ([] : Bytes) = [] ∧ (st done e v4).i = 0) := by
    rintro (h46 | ⟨-, hzero⟩)
    · exact absurd h46 (by simp)
    · exact hdone (length_eq_zero_iff.1 hzero)
  rw [← append_nil w, parseLoop, if_pos hgo, hw.read stops_nil]
  dsimp only
  rw [if_neg hno, head?_nil, if_neg (by simp), parseLoop_nil]
  exact congrArg some (st_pair h g e v4)

theorem join_cons_cons (g g' : Nat) (gs : List Nat) :
    join (g :: g' :: gs) = ifmt 16 g ++ colon :: join (g' :: gs) := rfl

/-- The text and the bytes of `k` groups. -/
inductive Groups : Nat → Bytes → Bytes → Prop
  | one {w : Bytes} {g : Nat} : Hextet w g → Groups 1 w (pair g)
  | cons {w t b : Bytes} {g k : Nat} : Hextet w g → Groups k t b → Groups (k + 1) (w ++ colon :: t) (pair g ++ b)

theorem groups_join : ∀ (gs : List Nat), gs ≠ [] → (∀ g ∈ gs, g < 65536) → Groups gs.length (join gs) (bytesOf gs)
  | [], h, _ => absurd rfl h
  | [g], _, hgs => by
    have hjoin : join [g] = ifmt 16 g := append_nil _
    have hb : bytesOf [g] = pair g := append_nil _
    rw [hjoin, hb]
    exact .one (hextet_ifmt (hgs g (mem_singleton.2 rfl)))
  | g :: g' :: gs, _, hgs => by
    rw [join_cons_cons]
    exact .cons (hextet_ifmt (hgs g mem_cons_self))
      (groups_join (g' :: gs) (cons_ne_nil _ _) fun x hx => hgs x (mem_cons_of_mem g hx))

namespace Groups
variable {k : Nat} {s b : Bytes}

section
variable (h : Groups k s b)
include h

theorem length : b.length = 2 * k := by
  induction h with
  | one hw => rfl
  | cons hw h ih =>
    rw [length_append, ih]
    show 2 + _ = _
    omega

theorem head (t : Bytes) : (s ++ t).head? ≠ some colon := by
  cases h with
  | one hw => exact hw.head t
  | cons hw h =>
    rw [append_assoc]
    exact hw.head _

theorem parse_before (done : Bytes) (e : Nat) (v4 : Bool) (hlen : done.length + b.length ≤ 16) :
    parseLoop (n + k) (s ++ colon :: colon :: t) (st done e v4) =
      parseLoop n t (st (done ++ b) (done ++ b).length false) := by
  induction h generalizing done e v4 with
  | one hw =>
    rw [length_append]
    exact parse_elide hw hlen t n
  | @cons w t' b g k hw h ih =>
    have hpair : (done ++ pair g).length = done.length + 2 := length_append
    have hall : (pair g ++ b).length = 2 + b.length := length_append
    rw [append_assoc, cons_append, ← add_assoc, parse_colon hw (by omega) (h.head _),
      ih (done ++ pair g) e false (by omega), append_assoc]

theorem parse_then (done : Bytes) (e : Nat) (v4 : Bool) (hlen : done.length + b.length ≤ 16)
    (ht : t.head? ≠ some colon) :
    parseLoop (n + k) (s ++ colon :: t) (st done e v4) = parseLoop n t (st (done ++ b) e false) := by
  induction h generalizing done e v4 with
  | one hw => exact parse_colon hw hlen ht n
  | @cons w t' b g k hw h ih =>
    have hpair : (done ++ pair g).length = done.length + 2 := length_append
    have hall : (pair g ++ b).length = 2 + b.length := length_append
    rw [append_assoc, cons_append, ← add_assoc, parse_colon hw (by omega) (h.head _),
      ih (done ++ pair g) e false (by omega), append_assoc]

theorem parse_after (done : Bytes) (hdone : done ≠ []) (hlen : done.length + b.length ≤ 16) :
    parseLoop (n + k) s (st done e false) = some (st (done ++ b) e false) := by
  induction h generalizing done with
  | one hw => exact parse_last hw hlen hdone n
  | @cons w t' b g k hw h ih =>
    have hpair : (done ++ pair g).length = done.length + 2 := length_append
    have hall : (pair g ++ b).length = 2 + b.length := length_append
    have hhead := h.head []
    rw [append_nil] at hhead
    rw [← add_assoc, parse_colon hw (by omega) hhead,
      ih (done ++ pair g) (append_ne_nil_of_left_ne_nil hdone _) (by omega), append_assoc]

end

end Groups

theorem parse_before (gs : List Nat) (done : Bytes) (e : Nat) (v4 : Bool) (hne : gs ≠ []) (hgs : ∀ g ∈ gs, g < 65536)
    (hlen : done.length + 2 * gs.length ≤ 16) :
    parseLoop (n + gs.length) (join gs ++ colon :: colon :: t) (st done e v4) =
      parseLoop n t (st (done ++ bytesOf gs) (done ++ bytesOf gs).length false) :=
  (groups_join gs hne hgs).parse_before done e v4 (by rw [bytesOf_length]; exact hlen)

theorem parse_after (gs : List Nat) (done : Bytes) (hdone : done ≠ []) (hgs : ∀ g ∈ gs, g < 65536)
    (hlen : done.length + 2 * gs.length ≤ 16) :
    parseLoop (n + gs.length) (join gs) (st done e false) = some (st (done ++ bytesOf gs) e false) := by
  by_cases hne : gs = []
  · subst hne
    rw [join, parseLoop_nil]
    exact congrArg (fun d => some (st d e false)) (append_nil done).symm
  · exact (groups_join gs hne hgs).parse_after done hdone (by rw [bytesOf_length]; exact hlen)

theorem parse_first (t : Bytes) (fuel : Nat) :
    parseLoop (fuel + 1) (colon :: colon :: t) (st [] 0 true) = parseLoop fuel t (st [0, 0] 2 false) := by
  have hgo : (st [] 0 true).i < 16 ∧ colon :: colon :: t ≠ [] := ⟨by decide, cons_ne_nil _ _⟩
  have hno : ¬((colon :: colon :: t).head? = some 46 ∨ colon :: colon :: t = [] ∧ (st [] 0 true).i = 0) := by
    rintro (h46 | ⟨hnil, -⟩)
    · exact absurd (Option.some.inj h46) (by decide)
    · exact cons_ne_nil _ _ hnil
  rw [parseLoop, if_pos hgo, strtoul_stops digitVal_colon (by decide) (by decide) (by decide)]
  dsimp only
  rw [if_neg hno, head?_cons, if_pos rfl, tail_cons, head?_cons, if_pos rfl]
  rfl

theorem spread_st (h : L.length + R.length ≤ 16) :
    spread (st (L ++ R) L.length v4) = L ++ replicate (16 - (L.length + R.length)) 0 ++ R := by
  have hi : (st (L ++ R) L.length v4).i = L.length + R.length := length_append
  have hip : (st (L ++ R) L.length v4).ip = L ++ (R ++ replicate (16 - (L.length + R.length)) 0) := by
    show L ++ R ++ replicate (16 - (L ++ R).length) 0 = _
    rw [length_append, append_assoc]
  have hel : (st (L ++ R) L.length v4).elipsis = L.length := rfl
  unfold spread
  rw [hi, hip, hel]
  by_cases hlt : L.length + R.length < 16
  · obtain ⟨z, hz⟩ : ∃ z, L.length + R.length + z = 16 := ⟨16 - (L.length + R.length), by omega⟩
    have hto : L.length + 16 - (L.length + R.length) = L.length + z := by omega
    rw [if_pos hlt, show 16 - (L.length + R.length) = z by omega, hto, Nat.add_sub_cancel_left]
    have hmove : memmove (L ++ (R ++ replicate z 0)) (L.length + z) L.length R.length =
        L ++ ((R ++ replicate z 0).take z ++ R) := by
      unfold memmove
      rw [take_length_add_append, drop_left, take_left, append_assoc, drop_eq_nil_of_le
        (by simp only [length_append, length_replicate]; omega), append_nil, append_assoc]
    have htake : ((R ++ replicate z (0 : UInt8)).take z).length = z := by
      rw [length_take, length_append, length_replicate]
      omega
    rw [hmove]
    unfold memset
    rw [take_left, drop_length_add_append, drop_left' htake]
  · rw [if_neg hlt, show 16 - (L.length + R.length) = 0 by omega, replicate_zero, append_nil, append_nil]

theorem lt_of_seg {g i n : Nat} (h : g ∈ seg p i n) : g < 65536 := by
  obtain ⟨k, -, rfl⟩ := mem_map.1 h
  exact group_lt p k

theorem st_nil : (⟨0, replicate 16 0, 0, true⟩ : Parse) = st [] 0 true := rfl

theorem parseip_v6 {str : Bytes} {s : Parse} (h : parseLoop 8 str (st [] 0 true) = some s) (hv : s.v4 = false) :
    parseip str = some (spread s, 6) := by
  unfold parseip
  rw [st_nil, h, map_some, hv, if_neg Bool.false_ne_true]

theorem bytesOf_addr (a : Addr) : bytesOf (seg a.1 0 8) = a.1 := by
  rw [bytesOf_seg 8 (le_of_eq a.2.symm), take_of_length_le (le_of_eq a.2)]

theorem bytes_split (a : Addr) (h : e + m ≤ 8) (hz : ∀ k, e ≤ k → k < e + m → group a.1 k = 0) :
    bytesOf (seg a.1 0 e) ++ replicate (2 * m) 0 ++ bytesOf (seg a.1 (e + m) (8 - (e + m))) = a.1 := by
  have hzeros : seg a.1 e m = replicate m 0 := by
    refine eq_replicate_iff.2 ⟨seg_length .., fun g hg => ?_⟩
    obtain ⟨k, hk, rfl⟩ := mem_map.1 hg
    obtain ⟨h1, h2⟩ := mem_range'_1.1 hk
    exact hz k h1 h2
  have hall : seg a.1 0 8 = seg a.1 0 e ++ seg a.1 e m ++ seg a.1 (e + m) (8 - (e + m)) := by
    have hone := seg_append a.1 0 e m
    have htwo := seg_append a.1 0 (e + m) (8 - (e + m))
    rw [zero_add] at hone htwo
    rw [← hone, ← htwo, Nat.add_sub_cancel' h]
  rw [← bytesOf_zeros, ← hzeros, ← bytesOf_append, ← bytesOf_append, ← hall, bytesOf_addr]

theorem parseip_full (a : Addr) : parseip (join (seg a.1 0 8)) = some (a.1, 6) := by
  have hfirst : parseLoop (7 + 1) (join (seg a.1 0 8)) (st [] 0 true) =
      parseLoop 7 (join (seg a.1 1 7)) (st ([] ++ pair (group a.1 0)) 0 false) :=
    parse_colon (hextet_ifmt (group_lt ..)) (by decide) ((hextet_ifmt (group_lt ..)).head _) 7
  have hrest := parse_after (n := 0) (e := 0) (seg a.1 1 7) ([] ++ pair (group a.1 0)) (cons_ne_nil _ _)
    (fun g => lt_of_seg) le_rfl
  have hall : [] ++ pair (group a.1 0) ++ bytesOf (seg a.1 1 7) = a.1 := bytesOf_addr a
  have hspread : spread (st a.1 0 false) = [] ++ replicate (16 - (0 + a.1.length)) 0 ++ a.1 :=
    spread_st (L := []) (by rw [a.2]; decide)
  rw [hall] at hrest
  rw [parseip_v6 (hfirst.trans hrest) rfl, hspread, a.2]
  rfl

theorem parseip_start (a : Addr) (hm : 1 ≤ m) (h : m ≤ 8) (hz : ∀ k, k < m → group a.1 k = 0) :
    parseip (colon :: colon :: join (seg a.1 m (8 - m))) = some (a.1, 6) := by
  have hfuel : 7 = (m - 1) + (seg a.1 m (8 - m)).length := by
    rw [seg_length]
    omega
  have hlen : (bytesOf (seg a.1 m (8 - m))).length = 16 - 2 * m := by
    rw [bytesOf_length, seg_length]
    omega
  have hrest := parse_after (n := m - 1) (e := 2) (seg a.1 m (8 - m)) [0, 0] (cons_ne_nil _ _)
    (fun g => lt_of_seg) (by rw [seg_length]; show 2 + _ ≤ 16; omega)
  have hspread : spread (st ([0, 0] ++ bytesOf (seg a.1 m (8 - m))) 2 false) =
      [0, 0] ++ replicate (16 - (2 + (bytesOf (seg a.1 m (8 - m))).length)) 0 ++ bytesOf (seg a.1 m (8 - m)) :=
    spread_st (L := [0, 0]) (by rw [hlen]; show 2 + _ ≤ 16; omega)
  have hsplit := bytes_split (e := 0) (m := m) a (by omega) fun k _ hk => hz k (by omega)
  have hzeros : [0, 0] ++ replicate (16 - (2 + (16 - 2 * m))) (0 : UInt8) = replicate (2 * m) 0 := by
    show replicate 2 0 ++ _ = _
    rw [replicate_append_replicate, show 2 + (16 - (2 + (16 - 2 * m))) = 2 * m by omega]
  rw [← hfuel] at hrest
  rw [zero_add] at hsplit
  rw [parseip_v6 ((parse_first _ 7).trans hrest) rfl, hspread, hlen, hzeros]
  exact congrArg (fun t => some (t, 6)) hsplit

theorem parseip_mid (a : Addr) (he : 0 < e) (hm : 1 ≤ m) (h : e + m ≤ 8)
    (hz : ∀ k, e ≤ k → k < e + m → group a.1 k = 0) :
    parseip (join (seg a.1 0 e) ++ colon :: colon :: join (seg a.1 (e + m) (8 - (e + m)))) = some (a.1, 6) := by
  have hne : seg a.1 0 e ≠ [] := ne_nil_of_length_pos (by rw [seg_length]; exact he)
  have hL : (bytesOf (seg a.1 0 e)).length = 2 * e := by rw [bytesOf_length, seg_length]
  have hR : (bytesOf (seg a.1 (e + m) (8 - (e + m)))).length = 16 - 2 * (e + m) := by
    rw [bytesOf_length, seg_length]
    omega
  have hfuel : 8 = m + (seg a.1 (e + m) (8 - (e + m))).length + (seg a.1 0 e).length := by
    rw [seg_length, seg_length]
    omega
  have hbefore := parse_before (n := m + (seg a.1 (e + m) (8 - (e + m))).length)
    (t := join (seg a.1 (e + m) (8 - (e + m)))) (seg a.1 0 e) [] 0 true hne (fun g => lt_of_seg)
    (by rw [seg_length]; show 0 + _ ≤ 16; omega)
  have hafter := parse_after (n := m) (e := 2 * e) (seg a.1 (e + m) (8 - (e + m))) (bytesOf (seg a.1 0 e))
    (ne_nil_of_length_pos (by omega)) (fun g => lt_of_seg) (by rw [hL, seg_length]; omega)
  have hspread : spread (st (bytesOf (seg a.1 0 e) ++ bytesOf (seg a.1 (e + m) (8 - (e + m))))
      (bytesOf (seg a.1 0 e)).length false) = _ := spread_st (by rw [hL, hR]; omega)
  rw [nil_append, hL, ← hfuel] at hbefore
  rw [hL, hR, show 16 - (2 * e + (16 - 2 * (e + m))) = 2 * m by omega, bytes_split a h hz] at hspread
  rw [parseip_v6 (hbefore.trans hafter) rfl, hspread]

theorem parseip_v6text (a : Addr) : parseip (v6text a.1) = some (a.1, 6) := by
  rcases v6text_cases a.1 with htext | ⟨e, m, hm, hem, hz, htext⟩
  · rw [htext, parseip_full]
  · rcases Nat.eq_zero_or_pos e with rfl | hpos
    · rw [zero_add] at hem htext
      rw [htext]
      exact parseip_start a hm hem fun k hk => hz k zero_le (by omega)
    · rw [htext, parseip_mid a hpos hm hem hz]

/-! ### The size of the text -/

theorem tailText_length : ∀ {gs : List Nat}, (∀ g ∈ gs, g < 65536) → (tailText gs).length ≤ 5 * gs.length
  | [], _ => le_rfl
  | g :: gs, h => by
    have hg : (ifmt 16 g).length ≤ 4 := ifmt_length_le (by decide) (by decide) (h g mem_cons_self)
    have hgs := tailText_length fun x hx => h x (mem_cons_of_mem g hx)
    rw [tailText_cons, length_cons, length_append, length_cons]
    omega

theorem join_length (gs : List Nat) (h : ∀ g ∈ gs, g < 65536) : (join gs).length ≤ 5 * gs.length - 1 := by
  rcases gs with _ | ⟨g, gs⟩
  · exact le_rfl
  · have hg : (ifmt 16 g).length ≤ 4 := ifmt_length_le (by decide) (by decide) (h g mem_cons_self)
    have hgs := tailText_length fun x hx => h x (mem_cons_of_mem g hx)
    rw [join, length_append, length_cons]
    omega

theorem v6text_length (p : Bytes) : (v6text p).length < 40 := by
  rcases v6text_cases p with htext | ⟨e, m, hm, hem, -, htext⟩
  · have hlen := join_length (seg p 0 8) fun g => lt_of_seg
    rw [seg_length] at hlen
    rw [htext]
    omega
  · have h1 := join_length (seg p 0 e) fun g => lt_of_seg
    have h2 := join_length (seg p (e + m) (8 - (e + m))) fun g => lt_of_seg
    rw [seg_length] at h1 h2
    rw [htext, length_append, length_cons, length_cons]
    omega

theorem digitVal_dot : digitVal 46 = none := by decide

theorem strtoul_byte (x : UInt8) {t : Bytes} (ht : Stops t) : strtoul 0 (ifmt 10 x.toNat ++ t) = (x.toNat, t) :=
  strtoul_decimal (lt_trans x.toNat_lt (by decide)) ht

theorem v4Loop_succ (off fuel i : Nat) (ip p : Bytes) : v4Loop off (fuel + 1) i ip p =
    if p = [] then some (ip, i, p)
    else
      let r := strtoul 0 p
      (poke ip (off + i) (UInt8.ofNat r.1)).bind fun ip =>
        v4Loop off fuel (i + 1) ip (if r.2.head? = some 46 then r.2.tail else r.2) := rfl

theorem v4Loop_dot (x : UInt8) (t : Bytes) {ip : Bytes} (h : i < ip.length) :
    v4Loop 0 (fuel + 1) i ip (ifmt 10 x.toNat ++ 46 :: t) = v4Loop 0 fuel (i + 1) (ip.set i x) t := by
  have hne : ifmt 10 x.toNat ++ 46 :: t ≠ [] := append_ne_nil_of_left_ne_nil ifmt_ne_nil _
  rw [v4Loop_succ, if_neg hne, strtoul_byte x (stops_cons digitVal_dot t)]
  dsimp only
  rw [zero_add, poke, if_pos h, bind_some, head?_cons, if_pos rfl, tail_cons, UInt8.ofNat_toNat]

theorem v4Loop_last (x : UInt8) {ip : Bytes} (h : i < ip.length) :
    v4Loop 0 1 i ip (ifmt 10 x.toNat) = some (ip.set i x, i + 1, []) := by
  have hbyte := strtoul_byte x stops_nil
  rw [append_nil] at hbyte
  rw [v4Loop_succ, if_neg ifmt_ne_nil, hbyte]
  dsimp only
  rw [zero_add, poke, if_pos h, bind_some, head?_nil, if_neg (by simp), UInt8.ofNat_toNat]
  rfl

variable {a b c d : UInt8}

theorem v4parseip_ifmt : v4parseip 0 (replicate 16 0) (ifmtV4 a b c d) =
    some ([a, b, c, d, 0, 0, 0, 0, 0, 0, 0, 0, 0, 0, 0, 0], []) := by
  have hloop : v4Loop 0 4 0 (replicate 16 0) (ifmtV4 a b c d) =
      some ([a, b, c, d, 0, 0, 0, 0, 0, 0, 0, 0, 0, 0, 0, 0], 4, []) := by
    rw [ifmtV4, v4Loop_dot a _ (by simp), v4Loop_dot b _ (by simp), v4Loop_dot c _ (by simp), v4Loop_last d (by simp)]
    rfl
  unfold v4parseip
  rw [hloop, bind_some]
  dsimp only
  rw [if_neg (fun h => absurd h.2 (by decide)), if_neg (fun h => absurd h.2 (by decide)),
    if_neg (fun h => absurd h.2 (by decide))]

theorem parseip_ifmt {ip : Bytes} (hip : ip = v4prefix ++ [a, b, c, d]) :
    parseip (ifmtV4 a b c d) = some (ip, nhgetl a b c d) := by
  have hstop : (strtoul 16 (ifmtV4 a b c d)).2.head? = some 46 := by
    rw [ifmtV4, strtoul_hex_decimal (stops_cons digitVal_dot _)]
    rfl
  have hne : ifmtV4 a b c d ≠ [] := append_ne_nil_of_left_ne_nil ifmt_ne_nil _
  have hloop : parseLoop (7 + 1) (ifmtV4 a b c d) (st [] 0 true) =
      some ⟨4, [a, b, c, d, 0, 0, 0, 0, 0, 0, 0, 0, 0, 0, 0, 0], 0, true⟩ := by
    rw [parseLoop, if_pos ⟨by decide, hne⟩]
    dsimp only
    rw [if_pos (.inl hstop)]
    exact congrArg (Option.map _) v4parseip_ifmt
  unfold parseip
  rw [st_nil, hloop, hip]
  rfl

theorem parseip_eipfmtI (a : Addr) : (parseip (eipfmtI a.1)).map Prod.fst = some a.1 := by
  by_cases h4 : a.1.take 12 = v4prefix
  · have hlast : a.1.drop 12 = [a.1.getD 12 0, a.1.getD 13 0, a.1.getD 14 0, a.1.getD 15 0] := by
      have hlen := a.2
      rw [drop_eq_getElem_cons (by omega), drop_eq_getElem_cons (by omega),
        drop_eq_getElem_cons (by omega), drop_eq_getElem_cons (by omega),
        drop_eq_nil_of_le (by omega), getD_eq_getElem _ _ (by omega), getD_eq_getElem _ _ (by omega),
        getD_eq_getElem _ _ (by omega), getD_eq_getElem _ _ (by omega)]
    rw [eipfmtI, if_pos h4, parseip_ifmt rfl, map_some, ← h4, ← hlast, take_append_drop]
  · rw [eipfmtI, if_neg h4, parseip_v6text, map_some]

/-- The highest `n` of 128 bits. -/
def prefixMask (n : Nat) : Bytes :=
  (range 16).map fun i => UInt8.ofNat ((2 ^ 128 - 2 ^ (128 - n)) >>> (8 * (15 - i)))

/-- Where the bits of the mask end, as `eipfmtM` counts them. -/
def Counts (n : Nat) (p : Bytes) : Prop :=
  let i := (p.takeWhile (· = 0xff)).length
  (p.drop (i + 1)).any (· ≠ 0) = false ∧
    if i < 16 then
      (maskBits 8 (p.getD i 0).toNat).2 = 0 ∧ 8 * i + (maskBits 8 (p.getD i 0).toNat).1 = n
    else 8 * i = n

instance (n : Nat) (p : Bytes) : Decidable (Counts n p) := by
  unfold Counts
  infer_instance

theorem prefixBits_eq : ∀ n ≤ 128, prefixBits n = prefixMask n := by decide +kernel

theorem counts_bits : ∀ n ≤ 128, Counts n (prefixBits n) := by decide +kernel

theorem eipfmtM_counts {n : Nat} (h : Counts n p) : eipfmtM p = 47 :: ifmt 10 n := by
  unfold Counts at h
  unfold eipfmtM
  dsimp only at h ⊢
  obtain ⟨hrest, hbits⟩ := h
  rw [hrest, if_neg Bool.false_ne_true]
  split_ifs at hbits ⊢ with h16 hv
  · exact absurd hbits.1 hv
  · rw [hbits.2]
  · rw [hbits]

theorem parseipmask_eipfmtM {n : Nat} (h : n ≤ 128) :
    (parseipmask (eipfmtM (prefixMask n))).map Prod.fst = some (prefixMask n) := by
  have hbits := prefixBits_eq n h
  rw [eipfmtM_counts (hbits ▸ counts_bits n h)]
  unfold parseipmask
  rw [head?_cons, if_pos rfl, tail_cons, atoi_ifmt (by omega)]
  dsimp only
  rw [if_neg (by omega), if_neg (by omega), Int.toNat_natCast, hbits]
  rfl

/-! ### The value of `parseip` -/

def number (a b c d : UInt8) : Nat := ((a.toNat * 256 + b.toNat) * 256 + c.toNat) * 256 + d.toNat

theorem append_toNat {w : Nat} (x : BitVec w) (y : UInt8) : (x ++ y.toBitVec).toNat = x.toNat * 256 + y.toNat := by
  rw [BitVec.toNat_append, ← Nat.shiftLeft_add_eq_or_of_lt y.toBitVec.isLt, Nat.shiftLeft_eq]
  rfl

theorem nhgetl_toNat : (nhgetl a b c d).toNat = number a b c d ↔ a.toNat < 128 := by
  have hnum : (a.toBitVec ++ b.toBitVec ++ c.toBitVec ++ d.toBitVec).toNat = number a b c d := by
    rw [append_toNat, append_toNat, append_toNat]
    rfl
  have hlt : number a b c d < 2 ^ 32 := hnum ▸ BitVec.isLt _
  have hb := b.toNat_lt
  have hc := c.toNat_lt
  have hd := d.toNat_lt
  have hmsb : 2 ^ 31 ≤ number a b c d ↔ ¬a.toNat < 128 := by
    unfold number
    omega
  rw [nhgetl, BitVec.toNat_signExtend, BitVec.toNat_setWidth, BitVec.msb_eq_decide, hnum,
    Nat.mod_eq_of_lt (lt_trans hlt (by decide))]
  by_cases h : a.toNat < 128
  · rw [decide_eq_false (fun hle => hmsb.1 hle h), if_neg Bool.false_ne_true]
    exact iff_of_true (add_zero _) h
  · rw [decide_eq_true (hmsb.2 h), if_pos rfl]
    exact iff_of_false (Nat.ne_of_gt (Nat.lt_add_of_pos_right (by norm_num))) h

/-- Addresses and masks are read as they are printed, and the value of `parseip` is the number of the address. -/
def Faithful (a b c d : UInt8) : Prop :=
  (∀ p : Addr, (parseip (eipfmtI p.1)).map Prod.fst = some p.1 ∧ (v6text p.1).length < 40) ∧
    (∀ n ≤ 128, (parseipmask (eipfmtM (prefixMask n))).map Prod.fst = some (prefixMask n)) ∧
      (parseip (ifmtV4 a b c d)).map (fun r => r.2.toNat) = some (number a b c d)

/-- `a[0]<<24` is an `int`, and the sign goes into the high half of the `unsigned long`. -/
theorem faithful_iff (a b c d : UInt8) : Faithful a b c d ↔ a.toNat < 128 := by
  have hvalue : (parseip (ifmtV4 a b c d)).map (fun r => r.2.toNat) = some (nhgetl a b c d).toNat := by
    rw [parseip_ifmt rfl]
    rfl
  rw [← nhgetl_toNat (b := b) (c := c) (d := d), Faithful, hvalue]
  constructor
  · rintro ⟨-, -, h⟩
    exact Option.some.inj h
  · intro h
    exact ⟨fun p => ⟨parseip_eipfmtI p, v6text_length p.1⟩, fun n => parseipmask_eipfmtM, congrArg some h⟩

theorem not_faithful_of_high (h : ¬a.toNat < 128) : ¬Faithful a b c d := by
  rintro ⟨-, -, hvalue⟩
  rw [parseip_ifmt rfl] at hvalue
  exact h (nhgetl_toNat.1 (Option.some.inj hvalue))

theorem not_faithful : ¬Faithful 200 1 2 3 := not_faithful_of_high (by decide)

end Node9.IpText
