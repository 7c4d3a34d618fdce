import Node9.Qio

/-!
# What block lists hold (`qio.c`)

`concatblock`, `packblock`, `trimblock`, `copyblock`, `adjustblock` and `qcopy` as functions of the bytes of a list.
An `int` is a number modulo 2^32, and an `int` that is compared to an `ulong` is extended to one with its sign. The
bytes of a list are less than 2^31, as its blocks are of a pool that is smaller.

`adjustblock` leaves the blocks behind the first one in the list when the first one has room for all, so it is a copy
only if these are empty; `trimblock` walks off the end of a list that is too short unless its sum of `offset` and
`len` tells it.
-/

namespace Node9.Qio
open Buf List

/-- The value of an `int`. -/
def int (n : Int) : Int := n.bmod (2 ^ 32)

/-- An `int` as an `ulong`. -/
def ulong (n : Int) : Nat := (n % 2 ^ 64).toNat

def blocklenLoop (len : Int) : List Block → Int
  | [] => len
  | bp :: next => blocklenLoop (int (len + bp.BLEN)) next

def blocklen (bp : List Block) : Int := blocklenLoop 0 bp

def concatLoop (nb : Block) : List Block → QM Block
  | [] => pure nb
  | f :: next => do
    let nb ← nb.put f.data
    concatLoop nb next

def concatblock (bp : List Block) : QM (List Block) :=
  match bp with
  | [] => fault
  | [bp] => pure [bp]
  | bp => do
    let nb ← allocb (blocklen bp)
    let nb ← concatLoop nb bp
    freeblist bp
    pure [nb]

/-- From the first byte at `offset` on, with what `offset` is in the first block. -/
def trimFront (offset : Int) : List Block → QM (Int × List Block)
  | [] => fault
  | bp :: nb =>
    if bp.BLEN < ulong offset then do
      freeb bp
      trimFront (int (offset - bp.BLEN)) nb
    else pure (offset, bp :: nb)

/-- The blocks behind the `len` bytes are freed. -/
def trimBack (len : Int) : List Block → QM (List Block)
  | [] => fault
  | bp :: next =>
    if bp.BLEN < ulong len then do
      let next ← trimBack (int (len - bp.BLEN)) next
      pure (bp :: next)
    else do
      freeblist next
      pure [{ bp with data := bp.data.take len.toNat, room := bp.room + (bp.BLEN - len.toNat) }]

/-- `bp->rp += offset` -/
def skipFirst (offset : Int) : List Block → List Block
  | [] => []
  | bp :: next => bp.skip offset.toNat :: next

def trimblock (bp : List Block) (offset len : Int) : QM (List Block) :=
  if blocklen bp < int (offset + len) then do
    freeblist bp
    pure []
  else do
    let r ← trimFront offset bp
    trimBack len (skipFirst r.1 r.2)

/-- The new block, and how many of the `count` bytes are missing. -/
def copyLoop (nbp : Block) (count : Int) : List Block → QM (Block × Int)
  | [] => pure (nbp, count)
  | bp :: next =>
    if count > 0 then do
      let l : Int := if bp.BLEN > count then count else bp.BLEN
      let nbp ← nbp.put (bp.data.take l.toNat)
      copyLoop nbp (count - l) next
    else pure (nbp, count)

def copyblock (bp : List Block) (count : Int) : QM Block := do
  let nbp ← allocb count
  let r ← copyLoop nbp count bp
  if r.2 > 0 then r.1.put (List.replicate r.2.toNat 0) else pure r.1

def adjustblock (bp : List Block) (len : Int) : QM (List Block) :=
  if len < 0 then
    match bp with
    | [] => pure []
    | bp :: _ => do
      freeb bp
      pure []
  else
    match bp with
    | [] => fault
    | b :: next =>
      if ((b.BLEN + b.room : Nat) : Int) < len then do
        let nbp ← copyblock (b :: next) len
        freeblist (b :: next)
        pure [nbp]
      else
        pure ({ b with
          data := b.data.take len.toNat ++ List.replicate (len.toNat - b.BLEN) 0
          room := b.BLEN + b.room - len.toNat } :: next)

def packblock : List Block → QM (List Block)
  | [] => pure []
  | nbp :: next =>
    let n : Int := nbp.BLEN
    if int (4 * n) < nbp.BALLOC then do
      let nb ← allocb n
      let nb ← nb.put nbp.data
      freeb nbp
      let next ← packblock next
      pure (nb :: next)
    else do
      let next ← packblock next
      pure (nbp :: next)

/-- The bytes of a block from `offset` on, and the blocks behind it. -/
def qseek (sofar : Int) (offset : UInt64) : List Block → Option (Bytes × List Block)
  | [] => none
  | b :: next =>
    if ulong (int (sofar + b.BLEN)) > offset.toNat then some (b.data.drop (offset.toNat - ulong sofar), next)
    else qseek (int (sofar + b.BLEN)) offset next

/-- `if(n > len - sofar) n = len - sofar` -/
def atMost (len sofar : Int) (p : Bytes) : Int := if p.length > len - sofar then len - sofar else p.length

def qcopyLoop (nb : Block) (len sofar : Int) (p : Bytes) : List Block → QM Block
  | [] => if sofar < len then nb.put (p.take (atMost len sofar p).toNat) else pure nb
  | b :: next =>
    if sofar < len then do
      let nb ← nb.put (p.take (atMost len sofar p).toNat)
      qcopyLoop nb len (sofar + atMost len sofar p) b.data next
    else pure nb

/-- `bp` is the list of the queue. -/
def qcopy (bp : List Block) (len : Int) (offset : UInt64) : QM Block := do
  let nb ← allocb len
  match qseek 0 offset bp with
  | none => pure nb
  | some r => qcopyLoop nb len 0 r.1 r.2

/-! ### Machine integers -/

theorem int_of_lt {n : Int} (h0 : 0 ≤ n) (h : n < 2 ^ 31) : int n = n := by
  unfold int
  rw [Int.bmod_eq_of_le_mul_two] <;> omega

theorem ulong_of_nonneg {n : Int} (h0 : 0 ≤ n) (h : n < 2 ^ 31) : ulong n = n.toNat := by
  unfold ulong
  omega

theorem ulong_of_neg {n : Int} (h0 : n < 0) (h : -2 ^ 31 ≤ n) : 2 ^ 31 ≤ ulong n := by
  unfold ulong
  omega

theorem int_sub_out {n : Int} {l t : Nat} (ht : l + t < 2 ^ 31) (hlo : -2 ^ 31 ≤ n) (hhi : n < 2 ^ 31)
    (hout : n < 0 ∨ (l + t : Nat) < n) :
    -2 ^ 31 ≤ int (n - l) ∧ int (n - l) < 2 ^ 31 ∧ (int (n - l) < 0 ∨ t < int (n - l)) := by
  unfold int
  rw [Int.bmod_def]
  split <;> omega

theorem lt_ulong_out {n : Int} {l t : Nat} (ht : l + t < 2 ^ 31) (hlo : -2 ^ 31 ≤ n) (hhi : n < 2 ^ 31)
    (hout : n < 0 ∨ (l + t : Nat) < n) : l < ulong n := by
  rcases hout with hneg | hgt
  · have := ulong_of_neg hneg hlo
    omega
  · rw [ulong_of_nonneg (by omega) hhi]
    omega

/-! ### What the loops do -/

section Loops
variable {b nb : Block} {bp : List Block} {h : Heap}

theorem blocklenLoop_eq {len : Int} (h0 : 0 ≤ len) (ht : len + total bp < 2 ^ 31) :
    blocklenLoop len bp = len + total bp := by
  induction bp generalizing len with
  | nil => simp [blocklenLoop]
  | cons b bp ih =>
    rw [total_cons] at ht ⊢
    rw [blocklenLoop, int_of_lt (by omega) (by omega), ih (by omega) (by omega)]
    omega

theorem blocklen_eq (ht : total bp < 2 ^ 31) : blocklen bp = total bp := by
  rw [blocklen, blocklenLoop_eq le_rfl (by omega), Int.zero_add]

theorem freeblist_ok (bp : List Block) (h : Heap) : ∃ h', freeblist bp h = some ((), h') := by
  induction bp generalizing h with
  | nil => exact ⟨h, rfl⟩
  | cons b bp ih =>
    obtain ⟨h', hh⟩ := ih { h with freed := b.addr :: h.freed }
    exact ⟨h', (bind_some rfl _).trans hh⟩

theorem concatLoop_ok (hroom : total bp ≤ nb.room) :
    concatLoop nb bp h = some ({ nb with data := nb.data ++ bytes bp, room := nb.room - total bp }, h) := by
  induction bp generalizing nb with
  | nil => simp [concatLoop]
  | cons b bp ih =>
    rw [total_cons] at hroom
    have hput := @put_ok h nb b.data (by simp only [Block.BLEN] at hroom; omega)
    rw [concatLoop, bind_some hput, ih (by simp only [Block.BLEN] at hroom ⊢; omega)]
    simp only [total_cons, bytes_cons, append_assoc, Block.BLEN, Nat.sub_sub]

theorem take_bytes_cons {n l : Nat} (hl : l = min n b.BLEN) :
    (bytes (b :: bp)).take n = b.data.take l ++ (bytes bp).take (n - l) := by
  rw [bytes_cons, take_append]
  simp only [Block.BLEN] at hl
  rcases Nat.le_total n b.data.length with hle | hle
  · rw [hl, min_eq_left hle, tsub_self, Nat.sub_eq_zero_of_le hle]
  · rw [hl, min_eq_right hle, take_of_length_le hle, take_of_length_le le_rfl]

theorem copyLoop_ok {count : Int} (hc : 0 ≤ count) (hroom : count ≤ nb.room) :
    ∃ nbp left, copyLoop nb count bp h = some ((nbp, left), h) ∧ nbp.data = nb.data ++ (bytes bp).take count.toNat ∧
      left = max (count - total bp) 0 ∧ left ≤ nbp.room := by
  induction bp generalizing nb count with
  | nil => exact ⟨nb, count, rfl, by simp, by simp [hc], hroom⟩
  | cons b bp ih =>
    unfold copyLoop
    by_cases hpos : count > 0
    · simp only [if_pos hpos]
      generalize hl : (if (b.BLEN : Int) > count then count else (b.BLEN : Int)) = l
      have hmin : l = min count b.BLEN := by rw [← hl]; split <;> omega
      have hlen : (b.data.take l.toNat).length = l.toNat := by
        simp only [Block.BLEN] at hmin
        rw [length_take]
        omega
      rw [bind_some (put_ok (by omega))]
      obtain ⟨nbp, left, hrun, hdata, hleft, hr⟩ := @ih
        { nb with data := nb.data ++ b.data.take l.toNat, room := nb.room - (b.data.take l.toNat).length } (count - l)
        (by omega) (by simp only [hlen]; omega)
      refine ⟨nbp, left, hrun, ?_, ?_, hr⟩
      · rw [hdata, take_bytes_cons (l := l.toNat) (by omega), append_assoc]
        congr 3
        omega
      · rw [hleft, total_cons]
        omega
    · have h0 : count = 0 := by omega
      subst h0
      simp only [if_neg hpos, pure_apply]
      exact ⟨nb, 0, rfl, by simp, by omega, hroom⟩

theorem trimFront_ok {offset : Int} (hbp : bp ≠ []) (h0 : 0 ≤ offset) (hle : offset ≤ total bp)
    (ht : total bp < 2 ^ 31) :
    ∃ o c cs h', trimFront offset bp h = some ((o, c :: cs), h') ∧ 0 ≤ o ∧ o ≤ c.BLEN ∧
      bytes (skipFirst o (c :: cs)) = (bytes bp).drop offset.toNat ∧ total (c :: cs) < 2 ^ 31 := by
  induction bp generalizing offset h with
  | nil => exact absurd rfl hbp
  | cons b bp ih =>
    rw [total_cons] at hle ht
    unfold trimFront
    have hu := ulong_of_nonneg h0 (by omega)
    by_cases hlt : b.BLEN < ulong offset
    · have hbp' : bp ≠ [] := by
        rintro rfl
        rw [total_nil] at hle
        omega
      have hint : int (offset - b.BLEN) = offset - b.BLEN := int_of_lt (by omega) (by omega)
      rw [if_pos hlt, bind_some rfl, hint]
      obtain ⟨o, c, cs, h', hrun, ho, hoc, hb, htc⟩ := @ih { h with freed := b.addr :: h.freed } (offset - b.BLEN)
        hbp' (by omega) (by omega) (by omega)
      refine ⟨o, c, cs, h', hrun, ho, hoc, ?_, htc⟩
      have hsub : (offset - b.BLEN : Int).toNat = offset.toNat - b.data.length := by simp only [Block.BLEN]; omega
      have hge : b.data.length ≤ offset.toNat := by simp only [Block.BLEN] at hlt; omega
      rw [hb, hsub, bytes_cons, drop_append, drop_eq_nil_of_le hge, nil_append]
    · rw [if_neg hlt]
      refine ⟨offset, b, bp, h, rfl, h0, by omega, ?_, by rw [total_cons]; exact ht⟩
      have hge : offset.toNat ≤ b.data.length := by simp only [Block.BLEN] at hlt; omega
      rw [bytes_cons, drop_append_of_le_length hge]
      rfl

theorem trimBack_ok {len : Int} (hbp : bp ≠ []) (h0 : 0 ≤ len) (hle : len ≤ total bp) (ht : total bp < 2 ^ 31) :
    ∃ r h', trimBack len bp h = some (r, h') ∧ bytes r = (bytes bp).take len.toNat := by
  induction bp generalizing len h with
  | nil => exact absurd rfl hbp
  | cons b bp ih =>
    rw [total_cons] at hle ht
    unfold trimBack
    have hu := ulong_of_nonneg h0 (by omega)
    by_cases hlt : b.BLEN < ulong len
    · have hbp' : bp ≠ [] := by
        rintro rfl
        rw [total_nil] at hle
        omega
      have hint : int (len - b.BLEN) = len - b.BLEN := int_of_lt (by omega) (by omega)
      obtain ⟨r, h', hrun, hb⟩ := @ih h (len - b.BLEN) hbp' (by omega) (by omega) (by omega)
      rw [if_pos hlt, hint, bind_some hrun]
      refine ⟨b :: r, h', rfl, ?_⟩
      have hsub : (len - b.BLEN : Int).toNat = len.toNat - b.BLEN := by omega
      rw [take_bytes_cons (l := b.BLEN) (by omega), bytes_cons, hb, hsub, Block.BLEN, List.take_length]
    · obtain ⟨h', hfree⟩ := freeblist_ok bp h
      rw [if_neg hlt, bind_some hfree]
      refine ⟨_, h', rfl, ?_⟩
      have hge : len.toNat ≤ b.data.length := by simp only [Block.BLEN] at hlt; omega
      rw [bytes_cons, bytes_cons, bytes_nil, append_nil, take_append_of_le_length hge]

theorem trimFront_fault {offset : Int} (ht : total bp < 2 ^ 31) (hlo : -2 ^ 31 ≤ offset) (hhi : offset < 2 ^ 31)
    (hout : offset < 0 ∨ total bp < offset) : trimFront offset bp h = none := by
  induction bp generalizing offset h with
  | nil => rfl
  | cons b bp ih =>
    rw [total_cons] at ht hout
    obtain ⟨hlo', hhi', hout'⟩ := int_sub_out ht hlo hhi hout
    rw [trimFront, if_pos (lt_ulong_out ht hlo hhi hout), bind_some rfl]
    exact ih (by omega) hlo' hhi' hout'

theorem trimBack_fault {len : Int} (ht : total bp < 2 ^ 31) (hlo : -2 ^ 31 ≤ len) (hhi : len < 2 ^ 31)
    (hout : len < 0 ∨ total bp < len) : trimBack len bp h = none := by
  induction bp generalizing len h with
  | nil => rfl
  | cons b bp ih =>
    rw [total_cons] at ht hout
    obtain ⟨hlo', hhi', hout'⟩ := int_sub_out ht hlo hhi hout
    rw [trimBack, if_pos (lt_ulong_out ht hlo hhi hout), bind_none (ih (by omega) hlo' hhi' hout')]

theorem qseek_eq {sofar : Int} {offset : UInt64} (h0 : 0 ≤ sofar) (hle : sofar.toNat ≤ offset.toNat)
    (ht : sofar + total bp < 2 ^ 31) :
    (qseek sofar offset bp = none ∧ (bytes bp).drop (offset.toNat - sofar.toNat) = []) ∨
      ∃ p next, qseek sofar offset bp = some (p, next) ∧ p ++ bytes next = (bytes bp).drop
      (offset.toNat - sofar.toNat) := by
  induction bp generalizing sofar with
  | nil => exact .inl ⟨rfl, drop_nil⟩
  | cons b bp ih =>
    rw [total_cons] at ht
    have hint : int (sofar + b.BLEN) = sofar + b.BLEN := int_of_lt (by omega) (by omega)
    have hu := ulong_of_nonneg (n := sofar + b.BLEN) (by omega) (by omega)
    have hstep : qseek sofar offset (b :: bp) =
        if ulong (sofar + b.BLEN) > offset.toNat then some (b.data.drop (offset.toNat - ulong sofar), bp)
        else qseek (sofar + b.BLEN) offset bp := by
      rw [qseek, hint]
    rw [hstep]
    by_cases hgt : ulong (sofar + b.BLEN) > offset.toNat
    · right
      have hu0 := ulong_of_nonneg h0 (by omega)
      have hlt : offset.toNat - sofar.toNat ≤ b.data.length := by simp only [Block.BLEN] at hu hgt; omega
      rw [if_pos hgt, hu0]
      exact ⟨_, _, rfl, by rw [bytes_cons, drop_append_of_le_length hlt]⟩
    have hge : b.data.length ≤ offset.toNat - sofar.toNat := by simp only [Block.BLEN] at hu hgt; omega
    have hsub : offset.toNat - (sofar + b.BLEN).toNat = offset.toNat - sofar.toNat - b.data.length := by
      simp only [Block.BLEN]
      omega
    have hdrop : (bytes (b :: bp)).drop (offset.toNat - sofar.toNat) =
        (bytes bp).drop (offset.toNat - (sofar + b.BLEN).toNat) := by
      rw [bytes_cons, drop_append, drop_eq_nil_of_le hge, nil_append, hsub]
    rw [if_neg hgt, hdrop]
    exact ih (by omega) (by omega) (by omega)

theorem atMost_eq {len sofar : Int} {p : Bytes} (hle : sofar ≤ len) :
    0 ≤ atMost len sofar p ∧ (atMost len sofar p).toNat = min (len - sofar).toNat p.length := by
  unfold atMost
  split <;> omega

theorem qcopyLoop_ok {len sofar : Int} {p : Bytes} (hle : sofar ≤ len) (hroom : len - sofar ≤ nb.room) :
    ∃ r, qcopyLoop nb len sofar p bp h = some (r, h) ∧ r.data = nb.data ++ (p ++ bytes bp).take
    (len - sofar).toNat := by
  induction bp generalizing nb sofar p with
  | nil =>
    obtain ⟨h0, hmost⟩ := atMost_eq (p := p) hle
    unfold qcopyLoop
    by_cases hlt : sofar < len
    · rw [if_pos hlt, put_ok (by rw [length_take]; omega)]
      refine ⟨_, rfl, ?_⟩
      have htake := @take_bytes_cons ⟨0, 0, p, 0⟩ [] _ _ hmost
      rw [bytes_nil, take_nil, append_nil] at htake
      exact congrArg (nb.data ++ ·) htake.symm
    · rw [if_neg hlt]
      exact ⟨nb, rfl, by rw [show (len - sofar).toNat = 0 by omega, take_zero, append_nil]⟩
  | cons b bp ih =>
    obtain ⟨h0, hmost⟩ := atMost_eq (p := p) hle
    have hlen : (p.take (atMost len sofar p).toNat).length =
      (atMost len sofar p).toNat := by rw [length_take]; omega
    unfold qcopyLoop
    by_cases hlt : sofar < len
    · rw [if_pos hlt, bind_some (put_ok (by omega))]
      obtain ⟨r, hrun, hdata⟩ := @ih
        { nb with
          data := nb.data ++ p.take (atMost len sofar p).toNat
          room := nb.room - (p.take (atMost len sofar p).toNat).length }
        (sofar + atMost len sofar p) b.data (by omega) (by simp only [hlen]; omega)
      refine ⟨r, hrun, ?_⟩
      have htake := @take_bytes_cons ⟨0, 0, p, 0⟩ (b :: bp) _ _ hmost
      have hsub : (len - (sofar + atMost len sofar p)).toNat = (len - sofar).toNat -
        (atMost len sofar p).toNat := by omega
      rw [hdata, append_assoc, hsub]
      exact congrArg (nb.data ++ ·) htake.symm
    · rw [if_neg hlt]
      exact ⟨nb, rfl, by rw [show (len - sofar).toNat = 0 by omega, take_zero, append_nil]⟩

theorem packblock_ok (bp : List Block) (h : Heap) : ∃ r h', packblock bp h = some (r, h') ∧ bytes r = bytes bp := by
  induction bp generalizing h with
  | nil => exact ⟨[], h, rfl, rfl⟩
  | cons b bp ih =>
    unfold packblock
    by_cases hlt : int (4 * (b.BLEN : Int)) < b.BALLOC
    · simp only [if_pos hlt]
      rw [bind_some (allocb_ok (by omega)), bind_some (put_ok (by show b.data.length ≤ (b.data.length : Int).toNat; omega)),
        bind_some rfl]
      obtain ⟨r, h', hrun, hb⟩ := ih { h with next := h.next + 1, freed := b.addr :: h.freed }
      rw [bind_some hrun]
      exact ⟨_, h', rfl, by rw [bytes_cons, bytes_cons, hb, nil_append]⟩
    · simp only [if_neg hlt]
      obtain ⟨r, h', hrun, hb⟩ := ih h
      rw [bind_some hrun]
      exact ⟨_, h', rfl, by rw [bytes_cons, bytes_cons, hb]⟩

end Loops

/-! ### The functions, as functions of the bytes -/

def slice (xs : Bytes) (offset len : Nat) : Bytes := (xs.drop offset).take len

/-- The first bytes, followed by zeros if there are less. -/
def padded (xs : Bytes) (count : Nat) : Bytes := xs.take count ++ List.replicate (count - xs.length) 0

def Within (bp : List Block) (offset len : Int) : Prop := 0 ≤ offset ∧ 0 ≤ len ∧ offset + len ≤ total bp

section Functions
variable {b : Block} {bp : List Block} {h : Heap}

theorem concatblock_ok (hbp : bp ≠ []) (ht : total bp < 2 ^ 31) :
    ∃ r h', concatblock bp h = some (r, h') ∧ bytes r = bytes bp := by
  cases bp with
  | nil => exact absurd rfl hbp
  | cons b next =>
    cases next with
    | nil => exact ⟨[b], h, rfl, rfl⟩
    | cons c next =>
      have hloop := @concatLoop_ok ⟨h.next, 0, [], total (b :: c :: next)⟩ (b :: c :: next)
        { h with next := h.next + 1 } le_rfl
      obtain ⟨h', hfree⟩ := freeblist_ok (b :: c :: next) { h with next := h.next + 1 }
      have halloc := @allocb_ok h (total (b :: c :: next)) (by omega)
      rw [Int.toNat_natCast] at halloc
      unfold concatblock
      simp only [blocklen_eq ht]
      rw [bind_some halloc, bind_some hloop, bind_some hfree]
      exact ⟨_, h', rfl, by rw [bytes_cons, bytes_nil, append_nil, nil_append]⟩

theorem copyblock_ok {count : Int} (hc : 0 ≤ count) (bp : List Block) (h : Heap) :
    ∃ r h', copyblock bp count h = some (r, h') ∧ r.data = padded (bytes bp) count.toNat := by
  obtain ⟨nbp, left, hrun, hdata, hleft, hroom⟩ := @copyLoop_ok ⟨h.next, 0, [], count.toNat⟩ bp
    { h with next := h.next + 1 } count hc (by show count ≤ (count.toNat : Int); omega)
  rw [nil_append] at hdata
  change left = max (count - ((bytes bp).length : Nat)) 0 at hleft
  unfold copyblock
  rw [bind_some (allocb_ok hc), bind_some hrun]
  by_cases hpos : left > 0
  · have hpad : left.toNat = count.toNat - (bytes bp).length := by omega
    simp only [if_pos hpos]
    rw [put_ok (by rw [length_replicate]; omega)]
    exact ⟨_, _, rfl, by rw [hdata, hpad]; rfl⟩
  · have hpad : count.toNat - (bytes bp).length = 0 := by omega
    simp only [if_neg hpos]
    exact ⟨nbp, _, rfl, by rw [hdata, padded, hpad, replicate_zero, append_nil]⟩

theorem allocb_fault {size : Int} (hs : size < 0) : allocb size h = none := if_pos hs

theorem copyblock_fault {count : Int} (hc : count < 0) : copyblock bp count h = none := bind_none (allocb_fault hc) _

theorem trimblock_ok {offset len : Int} (hbp : bp ≠ []) (ht : total bp < 2 ^ 31) (hw : Within bp offset len) :
    ∃ r h', trimblock bp offset len h = some (r, h') ∧ bytes r = slice (bytes bp) offset.toNat len.toNat := by
  obtain ⟨h0, h1, hle⟩ := hw
  obtain ⟨o, c, cs, h', hrun, ho, hoc, hb, -⟩ := @trimFront_ok bp h offset hbp h0 (by omega) ht
  have htot : total (skipFirst o (c :: cs)) = total bp - offset.toNat := by
    rw [total, hb, length_drop]
    rfl
  obtain ⟨r, h'', hrun', hb'⟩ := @trimBack_ok (skipFirst o (c :: cs)) h' len (cons_ne_nil _ _) h1
    (by omega) (by omega)
  unfold trimblock
  rw [blocklen_eq ht, int_of_lt (by omega) (by omega), if_neg (by omega), bind_some hrun]
  exact ⟨r, h'', hrun', by rw [hb', hb]; rfl⟩

theorem trimblock_short {offset len : Int} (ht : total bp < 2 ^ 31) (hs : total bp < int (offset + len)) :
    ∃ h', trimblock bp offset len h = some ([], h') := by
  obtain ⟨h', hfree⟩ := freeblist_ok bp h
  unfold trimblock
  rw [blocklen_eq ht, if_pos hs, bind_some hfree]
  exact ⟨h', rfl⟩

theorem trimblock_fault {offset len : Int} (ht : total bp < 2 ^ 31) (hlo : -2 ^ 31 ≤ offset) (hhi : offset < 2 ^ 31)
    (hlo' : -2 ^ 31 ≤ len) (hhi' : len < 2 ^ 31) (hw : ¬ (Within bp offset len ∧ bp ≠ []))
    (hs : ¬ total bp < int (offset + len)) : trimblock bp offset len h = none := by
  unfold trimblock
  rw [blocklen_eq ht, if_neg hs]
  by_cases hout : offset < 0 ∨ total bp < offset
  · exact bind_none (trimFront_fault ht hlo hhi hout) _
  by_cases hbp : bp = []
  · subst hbp
    rfl
  obtain ⟨o, c, cs, h', hrun, ho, hoc, hb, -⟩ := @trimFront_ok bp h offset hbp (by omega) (by omega) ht
  have htot : total (skipFirst o (c :: cs)) = total bp - offset.toNat := by
    rw [total, hb, length_drop]
    rfl
  have hlen : len < 0 ∨ (total (skipFirst o (c :: cs)) : Int) < len := by
    by_contra hin
    exact hw ⟨⟨by omega, by omega, by omega⟩, hbp⟩
  rw [bind_some hrun]
  show trimBack len (skipFirst o (c :: cs)) h' = none
  exact trimBack_fault (by omega) hlo' hhi' hlen

theorem qcopy_ok {len : Int} (hl : 0 ≤ len) (ht : total bp < 2 ^ 31) (offset : UInt64) :
    ∃ r h', qcopy bp len offset h = some (r, h') ∧ r.data = slice (bytes bp) offset.toNat len.toNat := by
  unfold qcopy
  rw [bind_some (allocb_ok hl)]
  rcases @qseek_eq bp 0 offset le_rfl zero_le (by omega) with ⟨hs, hd⟩ | ⟨p, next, hs, hd⟩
  · rw [Int.toNat_zero, Nat.sub_zero] at hd
    simp only [hs, pure_apply]
    exact ⟨_, _, rfl, by rw [slice, hd, take_nil]⟩
  rw [Int.toNat_zero, Nat.sub_zero] at hd
  obtain ⟨r, hrun, hdata⟩ := @qcopyLoop_ok ⟨h.next, 0, [], len.toNat⟩ next { h with next := h.next + 1 } len 0 p hl
    (by show len - 0 ≤ (len.toNat : Int); omega)
  simp only [hs]
  rw [hd, Int.sub_zero, nil_append] at hdata
  exact ⟨r, _, hrun, hdata⟩

theorem adjustblock_room {len : Int} (hl : 0 ≤ len) (hroom : ¬ ((b.BLEN + b.room : Nat) : Int) < len) :
    ∃ r h', adjustblock (b :: bp) len h = some (r, h') ∧ bytes r = padded b.data len.toNat ++ bytes bp := by
  unfold adjustblock
  rw [if_neg (by omega)]
  simp only [if_neg hroom, pure_apply]
  exact ⟨_, _, rfl, by rw [bytes_cons]; rfl⟩

theorem adjustblock_copy {len : Int} (hl : 0 ≤ len) (hroom : ((b.BLEN + b.room : Nat) : Int) < len) :
    ∃ r h', adjustblock (b :: bp) len h = some (r, h') ∧ bytes r = padded (bytes (b :: bp)) len.toNat := by
  obtain ⟨c, h₁, hrun, hc⟩ := copyblock_ok hl (b :: bp) h
  obtain ⟨h₂, hfree⟩ := freeblist_ok (b :: bp) h₁
  unfold adjustblock
  rw [if_neg (by omega)]
  simp only [if_pos hroom]
  rw [bind_some hrun, bind_some hfree]
  exact ⟨_, h₂, rfl, by rw [bytes_cons, bytes_nil, append_nil, hc]⟩

theorem length_padded (xs : Bytes) (count : Nat) : (padded xs count).length = count := by
  rw [padded, length_append, length_take, length_replicate]
  omega

end Functions

/-! ### When they are what they should be -/

inductive Call
  | concatblock (bp : List Block)
  | packblock (bp : List Block)
  | trimblock (bp : List Block) (offset len : Int32)
  | copyblock (bp : List Block) (count : Int32)
  | adjustblock (bp : List Block) (len : Int32)
  | qcopy (bp : List Block) (len : Int32) (offset : UInt64)

namespace Call

def list : Call → List Block
  | concatblock bp | packblock bp | trimblock bp _ _ | copyblock bp _ | adjustblock bp _ | qcopy bp _ _ => bp

def Meets (h : Heap) : Call → Prop
  | concatblock bp => ∃ r h', Qio.concatblock bp h = some (r, h') ∧ bytes r = bytes bp
  | packblock bp => ∃ r h', Qio.packblock bp h = some (r, h') ∧ bytes r = bytes bp
  | trimblock bp offset len => ∃ r h', Qio.trimblock bp offset.toInt len.toInt h = some (r, h') ∧
    (Within bp offset.toInt len.toInt → bytes r = slice (bytes bp) offset.toInt.toNat len.toInt.toNat) ∧
    (¬ Within bp offset.toInt len.toInt → r = [])
  | copyblock bp count => ∃ r h', Qio.copyblock bp count.toInt h = some (r, h') ∧
    r.data = padded (bytes bp) count.toInt.toNat
  | adjustblock bp len => 0 ≤ len.toInt → ∃ r h' c h'', Qio.adjustblock bp len.toInt h = some (r, h') ∧
    Qio.copyblock bp len.toInt h = some (c, h'') ∧ bytes r = c.data
  | qcopy bp len offset => ∃ r h', Qio.qcopy bp len.toInt offset h = some (r, h') ∧
    r.data = slice (bytes bp) offset.toNat len.toInt.toNat

def Suits : Call → Prop
  | concatblock bp => bp ≠ []
  | packblock _ => True
  | trimblock bp offset len =>
    (Within bp offset.toInt len.toInt ∧ bp ≠ []) ∨ total bp < int (offset.toInt + len.toInt)
  | copyblock _ count => 0 ≤ count.toInt
  | adjustblock bp len => 0 ≤ len.toInt →
    ∃ b next, bp = b :: next ∧ (((b.BLEN + b.room : Nat) : Int) < len.toInt ∨ bytes next = [])
  | qcopy _ len _ => 0 ≤ len.toInt

end Call

theorem adjustblock_iff {bp : List Block} {len : Int32} (h : Heap) :
    (Call.adjustblock bp len).Meets h ↔ (Call.adjustblock bp len).Suits := by
  refine forall_congr' fun hl => ?_
  obtain ⟨c, h₁, hrun, hc⟩ := copyblock_ok hl bp h
  cases bp with
  | nil =>
    have hf : adjustblock [] len.toInt h = none := by
      rw [adjustblock, if_neg (by omega)]
      rfl
    constructor
    · rintro ⟨r, h', c', h'', hr, -⟩
      cases hf.symm.trans hr
    · rintro ⟨b, next, hnil, -⟩
      cases hnil
  | cons b next =>
    by_cases hroom : ((b.BLEN + b.room : Nat) : Int) < len.toInt
    · obtain ⟨r, h', hr, hb⟩ := @adjustblock_copy b next h _ hl hroom
      exact ⟨fun _ => ⟨b, next, rfl, .inl hroom⟩, fun _ => ⟨r, h', c, h₁, hr, hrun, hb.trans hc.symm⟩⟩
    obtain ⟨r, h', hr, hb⟩ := @adjustblock_room b next h _ hl hroom
    constructor
    · rintro ⟨r', h₂, c', h₃, hr', hc', heq⟩
      cases hr.symm.trans hr'
      cases hrun.symm.trans hc'
      refine ⟨b, next, rfl, .inr ?_⟩
      have hlen := congrArg List.length (hb.symm.trans (heq.trans hc))
      rw [length_append, length_padded, length_padded] at hlen
      exact length_eq_zero_iff.1 (by omega)
    · rintro ⟨b', next', heq, hor⟩
      cases heq
      have hnil := hor.resolve_left hroom
      refine ⟨r, h', c, h₁, hr, hrun, ?_⟩
      rw [hb, hc, bytes_cons, hnil, append_nil, append_nil]

/-- For every call on lists of less than 2^31 bytes. -/
theorem meets_iff {call : Call} (ht : total call.list < 2 ^ 31) (h : Heap) : call.Meets h ↔ call.Suits := by
  cases call with
  | concatblock bp =>
    refine ⟨?_, fun hs => concatblock_ok hs ht⟩
    rintro ⟨r, h', hr, -⟩ rfl
    cases hr
  | packblock bp => exact ⟨fun _ => trivial, fun _ => packblock_ok bp h⟩
  | trimblock bp offset len =>
    have hlo := Int32.le_toInt offset
    have hhi := Int32.toInt_lt offset
    have hlo' := Int32.le_toInt len
    have hhi' := Int32.toInt_lt len
    constructor
    · rintro ⟨r, h', hr, -⟩
      by_contra hs
      obtain ⟨hw, hs⟩ := not_or.1 hs
      cases (trimblock_fault (h := h) ht hlo hhi hlo' hhi' hw hs).symm.trans hr
    · rintro (⟨hw, hbp⟩ | hs)
      · obtain ⟨r, h', hr, hb⟩ := trimblock_ok (h := h) hbp ht hw
        exact ⟨r, h', hr, fun _ => hb, fun hn => absurd hw hn⟩
      · obtain ⟨h', hr⟩ := trimblock_short (h := h) ht hs
        refine ⟨[], h', hr, fun hw => ?_, fun _ => rfl⟩
        obtain ⟨h0, h1, hle⟩ := hw
        change total bp < 2 ^ 31 at ht
        rw [int_of_lt (by omega) (by omega)] at hs
        omega
  | copyblock bp count =>
    refine ⟨?_, fun hs => copyblock_ok hs bp h⟩
    rintro ⟨r, h', hr, -⟩
    by_contra hn
    cases (copyblock_fault (Int.not_le.1 hn)).symm.trans hr
  | adjustblock bp len => exact adjustblock_iff h
  | qcopy bp len offset =>
    refine ⟨?_, fun hs => qcopy_ok hs ht offset⟩
    rintro ⟨r, h', hr, -⟩
    by_contra hn
    cases (bind_none (allocb_fault (Int.not_le.1 hn)) _).symm.trans hr

/-- The last two of three bytes in two blocks. -/
theorem meets_iff_slice : (Call.trimblock [⟨0, 0, [1, 2], 0⟩, ⟨1, 0, [3], 0⟩] 1 2).Meets ⟨2, []⟩ ↔
    (Call.trimblock [⟨0, 0, [1, 2], 0⟩, ⟨1, 0, [3], 0⟩] 1 2).Suits :=
  meets_iff (by decide) ⟨2, []⟩

/-- Two blocks of a byte, of which the first has room for another: both are left. -/
theorem adjustblock_keeps : ¬ (Call.adjustblock [⟨0, 0, [1], 1⟩, ⟨1, 0, [2], 0⟩] 2).Meets ⟨2, []⟩ := by
  intro h
  have hrun : adjustblock [⟨0, 0, [1], 1⟩, ⟨1, 0, [2], 0⟩] (2 : Int32).toInt ⟨2, []⟩ =
      some ([⟨0, 0, [1, 0], 0⟩, ⟨1, 0, [2], 0⟩], ⟨2, []⟩) := rfl
  have hcopy : copyblock [⟨0, 0, [1], 1⟩, ⟨1, 0, [2], 0⟩] (2 : Int32).toInt ⟨2, []⟩ = some (⟨2, 0, [1, 2], 0⟩,
    ⟨3, []⟩) := rfl
  obtain ⟨r, h', c, h'', hr, hc, heq⟩ := h (by decide)
  cases hrun.symm.trans hr
  cases hcopy.symm.trans hc
  revert heq
  decide

end Node9.Qio
