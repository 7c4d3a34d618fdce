import Node9.Blocks
import Node9.ConvM2S
import Node9.Lib.Steps

/-!
# Reading a reply (`mntrpcread` in `devmnt.c`)

The connection is what its next calls of `bread` will return, each of them blocks, nil or an error. `len` is
an `int` that gets the size field of the message, and `convM2S` takes it back as an `uint`. For an `Rread` only
the header is in one block when `convM2S` gets `len` bytes from its start: what it would find behind the block
is `junk`.

`Framed` says what a call should do, `Sound` when it does (`framed_iff`).
-/

namespace Node9.MntRead
open Buf Blocks Steps List

/-- What `bread` returns. -/
inductive Bread
  | blocks (bs : List Block)
  | nil
  | error

structure Mnt where
  msize : Nat
  q : List Block
  conn : List Bread

inductive Read
  | done
  | eof
  | error

/-- `none` as long as it waits for `bread`. -/
def doread (len : Int) (q : List Block) : List Bread → Option (Read × List Block × List Bread)
  | [] => if qlen q < len then none else some (.done, q, [])
  | b :: conn =>
    if qlen q < len then
      match b with
      | .error => some (.error, q, conn)
      | .nil => some (.eof, q, conn)
      | .blocks bs => if qlen bs = 0 then some (.eof, q, conn) else doread len (q ++ bs) conn
    else some (.done, q, b :: conn)

/-- The reply, the memory into which its pointers point, and the blocks that hang off the request. -/
structure Reply where
  reply : Fcall Ptr Ptr
  buf : Bytes
  b : List Block

inductive Outcome
  /-- `return 0` -/
  | ok (r : Reply)
  /-- `return -1` -/
  | fail
  /-- the error of `bread` -/
  | raise
  /-- a nil pointer is followed -/
  | nilptr
  /-- `convM2S` gets a length beyond the bytes that were read -/
  | overrun

/-- The loop that hangs the data off the request: `len` bytes after the first `hlen`. -/
def hang (hlen : Nat) (len : Int) : List Block → List Block → Option (List Block × List Block)
  | [], _ => none
  | b :: q, acc =>
    let b := ⟨b.data.drop hlen, b.room⟩
    let len := len - hlen
    if b.len ≤ len then
      if len - b.len > 0 then hang 0 (len - b.len) q (acc ++ [b]) else some (acc ++ [b], q)
    else some (acc ++ [⟨b.data.take len.toNat, b.room + (b.len - len.toNat)⟩], ⟨b.data.drop len.toNat, 0⟩ :: q)

/-- The `len` bytes of memory that start with the bytes of a block. -/
def memory (junk : Nat → UInt8) (data : Bytes) (len : Nat) : Bytes :=
  (data ++ (List.range len).map junk).take len

/-- From the second `doread` on. -/
def readMsg (m : Mnt) (f : Fcall Ptr Ptr) (junk : Nat → UInt8) (size : UInt32) (t : UInt8) (q : List Block)
    (conn : List Bread) : Outcome × Mnt :=
  let len : Int := size.toInt32.toInt
  let hlen : Int := if t = MsgType.Rread.toByte then BIT32SZ + BIT8SZ + BIT16SZ + BIT32SZ else len
  match pullupqueue q hlen with
  | none => (.nilptr, { m with q := [], conn })
  | some [] => (.nilptr, { m with q := [], conn })
  | some (nb :: bs) =>
    let q := nb :: bs
    if size.toNat > qlen q then (.overrun, { m with q, conn })
    else
      match convM2S (memory junk nb.data size.toNat) f with
      | none => (.overrun, { m with q, conn })
      | some (n, cur) =>
        if n = 0 then (.fail, { m with q := qdiscard q len.toNat, conn })
        else
          -- `convM2S` changes the strings of the message where they are
          let nb : Block := ⟨cur.buf.take nb.len ++ nb.data.drop size.toNat, nb.room⟩
          match hang hlen.toNat len (nb :: bs) [] with
          | none => (.nilptr, { m with q := [], conn })
          | some (b, q) => (.ok ⟨cur.r, cur.buf, b⟩, { m with q, conn })

/-- From the size on, with the header in `nb`. -/
def readRest (m : Mnt) (f : Fcall Ptr Ptr) (junk : Nat → UInt8) (nb : Block) (bs : List Block) (conn : List Bread) :
    Option (Outcome × Mnt) :=
  let size := gbit32 nb.data
  let t := nb.data.getD BIT32SZ 0
  if size.toInt32.toInt > m.msize then some (.fail, { m with q := [], conn })
  else
    match doread size.toInt32.toInt (nb :: bs) conn with
    | none => none
    | some (.eof, q, conn) => some (.fail, { m with q, conn })
    | some (.error, q, conn) => some (.raise, { m with q, conn })
    | some (.done, q, conn) => some (readMsg m f junk size t q conn)

def header : Int := BIT32SZ + BIT8SZ + BIT16SZ

def mntrpcread (m : Mnt) (f : Fcall Ptr Ptr) (junk : Nat → UInt8) : Option (Outcome × Mnt) :=
  let f := { f with type := 0, tag := 0 }
  match doread header m.q m.conn with
  | none => none
  | some (.eof, q, conn) => some (.fail, { m with q, conn })
  | some (.error, q, conn) => some (.raise, { m with q, conn })
  | some (.done, q, conn) =>
    match pullupqueue q header with
    | none => some (.nilptr, { m with q := [], conn })
    | some [] => some (.nilptr, { m with q := [], conn })
    | some (nb :: bs) => readRest m f junk nb bs conn

/-- The state after a call that returns or raises an error. -/
def call (m : Mnt) (c : Fcall Ptr Ptr × (Nat → UInt8)) : Option Mnt :=
  match mntrpcread m c.1 c.2 with
  | some (.ok _, m') | some (.fail, m') | some (.raise, m') => some m'
  | _ => none

/-! ### What should hold -/

def Bread.bytes : Bread → Bytes
  | .blocks bs => Blocks.bytes bs
  | _ => []

def connBytes (conn : List Bread) : Bytes := conn.flatMap Bread.bytes

/-- The bytes that are in the queue and those that are still to come. -/
def Mnt.stream (m : Mnt) : Bytes := bytes m.q ++ connBytes m.conn

/-- `r` is the reply that the message `msg` decodes to, with the data of an `Rread` in its blocks. -/
structure Decodes (msg : Bytes) (f : Fcall Ptr Ptr) (r : Reply) : Prop where
  size : (gbit32 msg).toNat = msg.length
  reply : ∃ cur, convM2S msg { f with type := 0, tag := 0 } = some (gbit32 msg, cur) ∧ gbit32 msg ≠ 0 ∧
    r.reply = cur.r ∧
    (msg.getD BIT32SZ 0 ≠ MsgType.Rread.toByte → r.buf = cur.buf)
  data : msg.getD BIT32SZ 0 = MsgType.Rread.toByte → bytes r.b = msg.drop 11 ∧ r.reply.count.toNat = (bytes r.b).length

/-- One message was removed from the stream and the request has its reply, or the call returned -1. -/
def Meets (stream : Bytes) (f : Fcall Ptr Ptr) : Outcome × Mnt → Prop
  | (.ok r, m') => ∃ msg, stream = msg ++ m'.stream ∧ Decodes msg f r
  | (.fail, _) | (.raise, _) => True
  | (.nilptr, _) | (.overrun, _) => False

def Framed (m : Mnt) (f : Fcall Ptr Ptr) (junk : Nat → UInt8) : Prop :=
  ∀ x, mntrpcread m f junk = some x → Meets m.stream f x

/-- The size is not negative as an `int`, and an `Rread` has its count, or there are bytes after it in its
place. -/
def Sound (m : Mnt) : Prop :=
  ∀ q conn, doread header m.q m.conn = some (.done, q, conn) →
    (gbit32 (bytes q)).toNat < 2 ^ 31 ∧
    ((bytes q).getD BIT32SZ 0 = MsgType.Rread.toByte → (gbit32 (bytes q)).toNat ≤ m.msize →
      ∀ q' conn', doread (gbit32 (bytes q)).toNat q conn = some (.done, q', conn') →
        11 ≤ (gbit32 (bytes q)).toNat ∨ 11 ≤ qlen q')

/-! ### `convM2S` on an `Rread`

It looks at the header only. -/

/-- The fields in the header of an `Rread`. -/
def hdr (ap : Bytes) : UInt32 × UInt16 × UInt32 :=
  (gbit32 (ap.take 4), gbit16 ((ap.drop 5).take 2), gbit32 ((ap.drop 7).take 4))

theorem wp_getMsg_Rread {ap : Bytes} (f : Fcall Ptr Ptr) (h : 11 ≤ ap.length)
    (ht : gbit8 ((ap.drop 4).take 1) = MsgType.Rread.toByte) :
    wp getMsg (fun n s => s.buf = ap ∧ n = (hdr ap).1 ∧ n.toNat = 11 + (hdr ap).2.2.toNat ∧ n.toNat ≤ ap.length ∧
        s.r = { f with type := MsgType.Rread.toByte, tag := (hdr ap).2.1, count := (hdr ap).2.2, data := some 11 })
      (fun _ => ¬ (11 + (hdr ap).2.2.toNat ≤ ap.length ∧ (hdr ap).1.toNat = 11 + (hdr ap).2.2.toNat)) ⟨0, ap, f⟩ := by
  have hof : MsgType.ofByte (gbit8 ((ap.drop (0 + BIT32SZ)).take BIT8SZ)) = some .Rread :=
    (congrArg MsgType.ofByte ht).trans (MsgType.ofByte_toByte _)
  have h7 : ¬ ap.length < 7 := by omega
  have h11 : ¬ ap.length < 11 := by omega
  refine (wp_bind _ _).2 ((wp_chk _).2 ⟨fun _ => ?_, fun hlt => absurd hlt h7⟩)
  refine (wp_bind _ _).2 ((wp_fetch _).2 ⟨show 4 ≤ ap.length by omega, ?_⟩)
  refine (wp_ite _ _).2 ⟨fun hsize hc => ?_, fun hsize => ?_⟩
  · have hs : (hdr ap).1.toNat < 7 := hsize
    omega
  refine (wp_bind _ _).2 ((wp_bind _ _).2 ((wp_fetch _).2 ⟨show 5 ≤ ap.length by omega, (wp_assign _).2 ?_⟩))
  refine (wp_bind _ _).2 ((wp_bind _ _).2 ((wp_fetch _).2 ⟨show 7 ≤ ap.length by omega, (wp_assign _).2 ?_⟩))
  rw [wp_bind, wp_field]
  dsimp only
  rw [hof]
  refine (wp_bind _ _).2 ((wp_bind _ _).2 ((wp_chk _).2 ⟨fun _ => ?_, fun hlt => absurd hlt h11⟩))
  refine (wp_bind _ _).2 ((wp_bind _ _).2 ((wp_fetch _).2 ⟨show 11 ≤ ap.length from h, (wp_assign _).2 ?_⟩))
  refine (wp_bind _ _).2 ((wp_bind _ _).2
    ((wp_chk _).2 ⟨fun hle => ?_, fun hlt hc => absurd hc.1 (Nat.not_le_of_lt hlt)⟩))
  have hle : 11 + (hdr ap).2.2.toNat ≤ ap.length := hle
  have hp : ((11 : Int) + (hdr ap).2.2.toNat).toNat = 11 + (hdr ap).2.2.toNat := by omega
  refine (wp_bind _ _).2 (wp_here.2 ((wp_bind _ _).2 ((wp_assign _).2 ((wp_move _).2 ?_))))
  refine (wp_bind _ _).2 ((wp_chk _).2 ⟨fun _ => ?_, fun hlt => ?_⟩)
  · refine (wp_bind _ _).2 ((wp_ite _ _).2 ⟨fun heq => ?_, fun hne hc => hne ?_⟩)
    · refine ⟨rfl, rfl, heq.trans hp, (heq.trans hp).symm ▸ hle, ?_⟩
      rw [← ht]
      rfl
    · exact hc.2.trans hp.symm
  · have hlt : ap.length < ((11 : Int) + (hdr ap).2.2.toNat).toNat := hlt
    omega

theorem hdr_congr {ap ap' : Bytes} (h : ap.take 11 = ap'.take 11) : hdr ap = hdr ap' := by
  have htake : ∀ k n, k + n ≤ 11 → (ap.drop k).take n = (ap'.drop k).take n := by
    intro k n hkn
    have hk := congrArg (fun l => (l.drop k).take n) h
    simp only [drop_take, take_take] at hk
    rwa [min_eq_left (by omega)] at hk
  have h4 := htake 0 4 (by decide)
  simp only [drop_zero] at h4
  rw [hdr, hdr, h4, htake 5 2 (by decide), htake 7 4 (by decide)]

theorem convM2S_Rread {ap ap' : Bytes} {f : Fcall Ptr Ptr} {n : UInt32} {cur : Cur (Fcall Ptr Ptr)}
    (hlen : ap.length = ap'.length)
    (h11 : 11 ≤ ap.length) (htake : ap.take 11 = ap'.take 11) (ht : gbit8 ((ap.drop 4).take 1) = MsgType.Rread.toByte)
    (hc : convM2S ap f = some (n, cur)) (hn : n ≠ 0) :
    cur.buf = ap ∧ 11 + cur.r.count.toNat = n.toNat ∧ cur.r.type = MsgType.Rread.toByte ∧
      ∃ cur', convM2S ap' f = some (n, cur') ∧ cur'.r = cur.r := by
  have ht' : gbit8 ((ap'.drop 4).take 1) = MsgType.Rread.toByte := by
    have h4 := congrArg (fun l => (l.drop 4).take 1) htake
    simp only [drop_take, take_take] at h4
    rw [← ht]
    exact congrArg gbit8 h4.symm
  have hwp := wp_getMsg_Rread f h11 ht
  have hwp' := wp_getMsg_Rread f (hlen ▸ h11) ht'
  unfold convM2S at hc ⊢
  unfold wp at hwp hwp'
  rw [← hdr_congr htake, ← hlen] at hwp'
  cases hrun : getMsg ⟨0, ap, f⟩ with
  | ok n₁ s =>
    rw [hrun] at hwp hc
    cases hc
    obtain ⟨hbuf, hsize, hcount, hle, hr⟩ := hwp
    refine ⟨hbuf, by rw [hr, hcount], by rw [hr], ?_⟩
    cases hrun' : getMsg ⟨0, ap', f⟩ with
    | ok n' s' =>
      rw [hrun'] at hwp'
      obtain ⟨-, hsize', -, -, hr'⟩ := hwp'
      exact ⟨s', by rw [hsize, hsize'], by rw [hr, hr']⟩
    | ret0 s' =>
      rw [hrun'] at hwp'
      exact absurd ⟨hcount ▸ hle, hsize ▸ hcount⟩ hwp'
    | fault =>
      rw [hrun'] at hwp'
      exact hwp'.elim
  | ret0 s =>
    rw [hrun] at hc
    cases hc
    exact absurd rfl hn
  | fault =>
    rw [hrun] at hc
    cases hc

/-! ### The parts of a call -/

theorem doread_spec {len : Int} {q q' : List Block} {conn conn' : List Bread}
    (h : doread len q conn = some (.done, q', conn')) :
    ∃ x, q' = q ++ x ∧ len ≤ qlen q' ∧ bytes x ++ connBytes conn' = connBytes conn := by
  induction conn generalizing q with
  | nil =>
    simp only [doread] at h
    split at h <;> cases h
    exact ⟨[], by simp, by omega, rfl⟩
  | cons b conn ih =>
    simp only [doread] at h
    split at h
    · cases b with
      | error => cases h
      | nil => cases h
      | blocks bs =>
        dsimp only at h
        split at h
        · cases h
        · obtain ⟨x, rfl, hlen, hbytes⟩ := ih h
          refine ⟨bs ++ x, by simp, hlen, ?_⟩
          rw [bytes_append, append_assoc, hbytes]
          rfl
    · cases h
      exact ⟨[], by simp, by omega, rfl⟩

theorem doread_congr {len : Int} {q p q' : List Block} {conn conn' : List Bread} (hp : qlen p = qlen q)
    (h : doread len q conn = some (.done, q', conn')) : ∃ p', doread len p conn = some (.done, p', conn') ∧
    qlen p' = qlen q' := by
  induction conn generalizing q p with
  | nil =>
    simp only [doread] at h ⊢
    rw [hp]
    split at h <;> cases h
    next hge => exact ⟨p, if_neg hge, hp⟩
  | cons b conn ih =>
    simp only [doread] at h ⊢
    rw [hp]
    split at h
    · next hlt =>
      rw [if_pos hlt]
      cases b with
      | error => cases h
      | nil => cases h
      | blocks bs =>
        dsimp only at h ⊢
        split at h
        · cases h
        · next hne =>
          rw [if_neg hne]
          exact ih (by rw [qlen_append, qlen_append, hp]) h
    · next hge =>
      cases h
      exact ⟨p, if_neg hge, hp⟩

/-- The blocks that hang off the request have the bytes after the header, and the rest stays in the queue. -/
theorem hang_spec (hlen : Nat) (len : Int) (q acc : List Block) (hq : q ≠ []) (hh : (hlen : Int) ≤ len)
    (hb : ∀ b ∈ q.head?, hlen ≤ b.len) (hlen' : len ≤ qlen q) :
    ∃ xs q', hang hlen len q acc = some (acc ++ xs, q') ∧ bytes xs = ((bytes q).drop hlen).take (len - hlen).toNat ∧
      bytes q' = (bytes q).drop len.toNat := by
  induction q generalizing hlen len acc with
  | nil => exact absurd rfl hq
  | cons b q ih =>
    have hb : hlen ≤ b.len := hb b (by simp)
    rw [qlen_cons] at hlen'
    simp only [Block.len] at hb hlen'
    have hdrop : (bytes (b :: q)).drop hlen = b.data.drop hlen ++ bytes q := by
      rw [bytes_cons, drop_append_of_le_length hb]
    have hd : (b.data.drop hlen).length = b.data.length - hlen := length_drop
    unfold hang
    dsimp only [Block.len]
    by_cases hle : ((b.data.drop hlen).length : Int) ≤ len - hlen
    · simp only [hle, if_true]
      rw [hd] at hle
      have hrest : (bytes (b :: q)).drop len.toNat = (bytes q).drop (len - b.data.length).toNat := by
        rw [bytes_cons, drop_append, drop_eq_nil_of_le (by omega), nil_append]
        congr 1
        omega
      have htake : ((bytes (b :: q)).drop hlen).take (len - hlen).toNat =
          b.data.drop hlen ++ (bytes q).take (len - b.data.length).toNat := by
        rw [hdrop, take_append, take_of_length_le (by omega), hd]
        congr 2
        omega
      rw [hrest, htake]
      by_cases hpos : len - hlen - ((b.data.drop hlen).length : Int) > 0
      · simp only [hpos, if_true]
        rw [hd] at hpos
        have hne : q ≠ [] := ne_nil_of_qlen (by omega)
        obtain ⟨xs, q', hrun, hxs, hq'⟩ := ih 0 (len - hlen - (b.data.drop hlen).length)
          (acc ++ [⟨b.data.drop hlen, b.room⟩]) hne (by omega) (fun _ _ => zero_le) (by omega)
        have hsub : len - hlen - (b.data.drop hlen).length = len - b.data.length := by omega
        rw [hsub] at hxs hq'
        refine ⟨⟨b.data.drop hlen, b.room⟩ :: xs, q', by simpa using hrun, ?_, hq'⟩
        simpa using hxs
      · simp only [hpos, if_false]
        rw [hd] at hpos
        have hzero : (len - b.data.length).toNat = 0 := by omega
        exact ⟨[⟨b.data.drop hlen, b.room⟩], q, rfl, by simp [hzero], by simp [hzero]⟩
    · simp only [hle, if_false]
      rw [hd] at hle
      refine ⟨[⟨(b.data.drop hlen).take (len - hlen).toNat, b.room + ((b.data.drop hlen).length - (len - hlen).toNat)⟩],
        ⟨(b.data.drop hlen).drop (len - hlen).toNat, 0⟩ :: q, rfl, ?_, ?_⟩
      · rw [hdrop, take_append_of_le_length (by omega)]
        simp
      · have hsum : hlen + (len - hlen).toNat = len.toNat := by omega
        rw [bytes_cons, bytes_cons, drop_append_of_le_length (by omega), drop_drop, hsum]

/-! ### The bytes of a header -/

theorem getD_append_left {a b : Bytes} {i : Nat} (hi : i < a.length) : (a ++ b).getD i 0 = a.getD i 0 := by
  rw [getD_eq_getElem?_getD, getD_eq_getElem?_getD, List.getElem?_append_left hi]

theorem gbit32_append {a b : Bytes} (h : 4 ≤ a.length) : gbit32 (a ++ b) = gbit32 a := by
  simp only [gbit32]
  rw [getD_append_left (by omega), getD_append_left (by omega), getD_append_left (by omega), getD_append_left (by omega)]

theorem gbit32_take {a : Bytes} {n : Nat} (hn : 4 ≤ n) (h : 4 ≤ a.length) : gbit32 (a.take n) = gbit32 a := by
  conv_rhs => rw [← take_append_drop n a]
  rw [gbit32_append (by rw [length_take]; omega)]

theorem getD_take {a : Bytes} {i n : Nat} (hi : i < n) : (a.take n).getD i 0 = a.getD i 0 := by
  rw [getD_eq_getElem?_getD, getD_eq_getElem?_getD, List.getElem?_take, if_pos hi]

theorem gbit8_eq {a : Bytes} (i : Nat) : gbit8 ((a.drop i).take 1) = a.getD i 0 := by
  rw [gbit8, getD_take Nat.one_pos, getD_eq_getElem?_getD, getD_eq_getElem?_getD, List.getElem?_drop,
    add_zero]

theorem length_memory (junk : Nat → UInt8) (data : Bytes) (len : Nat) : (memory junk data len).length = len := by
  simp [memory]

theorem memory_take {junk : Nat → UInt8} {data : Bytes} {len k : Nat} (hk : k ≤ data.length) (hl : k ≤ len) :
    (memory junk data len).take k = data.take k := by
  rw [memory, take_take, min_eq_left hl, take_append_of_le_length hk]

theorem convM2S_zero {ap : Bytes} {f : Fcall Ptr Ptr} {n : UInt32} {cur : Cur (Fcall Ptr Ptr)}
    (hwp : wp getMsg (fun _ _ => False) (fun _ => True) ⟨0, ap, f⟩) (hc : convM2S ap f = some (n, cur)) : n = 0 := by
  unfold convM2S at hc
  unfold wp at hwp
  cases hrun : getMsg ⟨0, ap, f⟩ with
  | ok n s =>
    rw [hrun] at hwp
    exact hwp.elim
  | ret0 s =>
    rw [hrun] at hc
    cases hc
    rfl
  | fault =>
    rw [hrun] at hc
    cases hc

theorem convM2S_short {ap : Bytes} {f : Fcall Ptr Ptr} {n : UInt32} {cur : Cur (Fcall Ptr Ptr)} (h : ap.length < 7)
    (hc : convM2S ap f = some (n, cur)) : n = 0 := by
  have hwp : wp getMsg (fun _ _ => False) (fun _ => True) ⟨0, ap, f⟩ :=
    (wp_bind _ _).2 ((wp_chk _).2 ⟨fun hle => absurd hle (Nat.not_le_of_lt h), fun _ => trivial⟩)
  exact convM2S_zero hwp hc

theorem convM2S_Rread_short {ap : Bytes} {f : Fcall Ptr Ptr} {n : UInt32} {cur : Cur (Fcall Ptr Ptr)}
    (h : ap.length < 11)
    (ht : ap.getD 4 0 = MsgType.Rread.toByte) (hc : convM2S ap f = some (n, cur)) : n = 0 := by
  by_cases h7 : ap.length < 7
  · exact convM2S_short h7 hc
  have hof : MsgType.ofByte (gbit8 ((ap.drop (0 + BIT32SZ)).take BIT8SZ)) = some .Rread :=
    (congrArg MsgType.ofByte ((gbit8_eq _).trans ht)).trans (MsgType.ofByte_toByte _)
  have hwp : wp getMsg (fun _ _ => False) (fun _ => True) ⟨0, ap, f⟩ := by
    refine (wp_bind _ _).2 ((wp_chk _).2 ⟨fun _ => ?_, fun _ => trivial⟩)
    refine (wp_bind _ _).2 ((wp_fetch _).2 ⟨show 4 ≤ ap.length by omega, ?_⟩)
    refine (wp_ite _ _).2 ⟨fun _ => trivial, fun _ => ?_⟩
    refine (wp_bind _ _).2 ((wp_bind _ _).2 ((wp_fetch _).2 ⟨show 5 ≤ ap.length by omega, (wp_assign _).2 ?_⟩))
    refine (wp_bind _ _).2 ((wp_bind _ _).2 ((wp_fetch _).2 ⟨show 7 ≤ ap.length by omega, (wp_assign _).2 ?_⟩))
    rw [wp_bind, wp_field]
    dsimp only
    rw [hof]
    exact (wp_bind _ _).2 ((wp_bind _ _).2
      ((wp_chk _).2 ⟨fun hle => absurd hle (Nat.not_le_of_lt h), fun _ => trivial⟩))
  exact convM2S_zero hwp hc

/-- What `readMsg` should do with the message at the start of `q`. -/
structure Good (m : Mnt) (f : Fcall Ptr Ptr) (q : List Block) (conn : List Bread) (x : Outcome × Mnt) : Prop where
  meets : Meets (bytes q ++ connBytes conn) f x
  msize : x.2.msize = m.msize
  conn : x.2.conn = conn
  qlen : qlen x.2.q ≤ qlen q

section
variable {m : Mnt} {f : Fcall Ptr Ptr} {junk : Nat → UInt8} {size : UInt32} {t : UInt8} {q bs : List Block}
  {conn : List Bread} {nb : Block} {n : UInt32} {cur : Cur (Fcall Ptr Ptr)}

theorem toInt_size (h : size.toNat < 2 ^ 31) : size.toInt32.toInt = size.toNat := by
  have hnat : size.toBitVec.toNat = size.toNat := rfl
  show size.toBitVec.toInt = size.toNat
  rw [BitVec.toInt_eq_toNat_of_lt (by omega), hnat]

theorem toInt_neg (h : 2 ^ 31 ≤ size.toNat) : size.toInt32.toInt < 0 := by
  have hnat : size.toBitVec.toNat = size.toNat := rfl
  have hlt := size.toNat_lt
  show size.toBitVec.toInt < 0
  rw [BitVec.toInt_eq_toNat_cond, if_neg (by omega)]
  omega

theorem memory_of_le {data : Bytes} {len : Nat} (h : len ≤ data.length) : memory junk data len = data.take len := by
  have hk : (memory junk data len).take len = data.take len := memory_take h (le_refl len)
  rwa [take_of_length_le (length_memory junk data len).le] at hk

theorem decodes_other (bs : List Block) (hlen : size.toNat ≤ nb.len) (h7 : 7 ≤ size.toNat)
    (hsize : gbit32 nb.data = size) (hn : n ≠ 0)
    (ht : nb.data.getD BIT32SZ 0 ≠ MsgType.Rread.toByte) (hcur : cur.buf.length = size.toNat)
    (hc : convM2S (memory junk nb.data size.toNat) { f with type := 0, tag := 0 } = some (n, cur)) (hnsize : n = size) :
    ∃ b q', hang size.toNat size.toNat (⟨cur.buf.take nb.len ++ nb.data.drop size.toNat, nb.room⟩ :: bs) [] = some
      (b, q') ∧
      bytes q' = (bytes (nb :: bs)).drop size.toNat ∧
      Decodes ((bytes (nb :: bs)).take size.toNat) f ⟨cur.r, cur.buf, b⟩ := by
  subst hnsize
  simp only [Block.len] at hlen
  have hbuf : cur.buf.take nb.len = cur.buf := take_of_length_le (by rw [hcur]; exact hlen)
  have hmsg : (bytes (nb :: bs)).take n.toNat = nb.data.take n.toNat := by
    rw [bytes_cons, take_append_of_le_length hlen]
  have hfirst : gbit32 (nb.data.take n.toNat) = n := by rw [gbit32_take (by omega) (by omega), hsize]
  have htype : (nb.data.take n.toNat).getD BIT32SZ 0 = nb.data.getD BIT32SZ 0 :=
    getD_take (lt_of_lt_of_le (by decide) h7)
  rw [hbuf, hmsg]
  obtain ⟨xs, q', hrun, -, hq'⟩ := hang_spec n.toNat n.toNat (⟨cur.buf ++ nb.data.drop n.toNat, nb.room⟩ :: bs) []
    (by simp) (Int.le_refl _) (by simp [Block.len, hcur]) (by rw [qlen_cons, Block.len, length_append]; omega)
  refine ⟨xs, q', hrun, ?_, ?_, ?_, ?_⟩
  · rw [hq', bytes_cons, bytes_cons, append_assoc, Int.toNat_natCast, ← hcur, drop_left, hcur,
      drop_append_of_le_length hlen]
  · rw [hfirst, length_take, min_eq_left hlen]
  · rw [memory_of_le hlen] at hc
    rw [hfirst]
    exact ⟨cur, hc, hn, rfl, fun _ => rfl⟩
  · intro hR
    exact absurd (htype.symm.trans hR) ht

theorem decodes_Rread (bs : List Block) (hlen : 11 ≤ nb.len) (hle : size.toNat ≤ qlen (nb :: bs))
    (hsize : gbit32 nb.data = size) (hn : n ≠ 0)
    (ht : nb.data.getD BIT32SZ 0 = MsgType.Rread.toByte)
    (hc : convM2S (memory junk nb.data size.toNat) { f with type := 0, tag := 0 } = some (n, cur)) (hnsize : n = size) :
    ∃ b q', hang 11 size.toNat (⟨cur.buf.take nb.len ++ nb.data.drop size.toNat, nb.room⟩ :: bs) [] = some (b, q') ∧
      bytes q' = (bytes (nb :: bs)).drop size.toNat ∧
      Decodes ((bytes (nb :: bs)).take size.toNat) f ⟨cur.r, cur.buf, b⟩ := by
  subst hnsize
  simp only [Block.len] at hlen
  have hmem4 : ∀ k, 5 ≤ k → (memory junk nb.data k).getD 4 0 = MsgType.Rread.toByte := by
    intro k hk
    rw [← ht, ← getD_take (a := memory junk nb.data k) (i := 4) (n := 5) (by decide),
      memory_take (by omega) hk, getD_take (by decide)]
    rfl
  have h11 : 11 ≤ n.toNat := by
    by_contra hlt
    by_cases h7 : n.toNat < 7
    · exact hn (convM2S_short (by rw [length_memory]; exact h7) hc)
    · exact hn (convM2S_Rread_short (by rw [length_memory]; omega) (hmem4 _ (by omega)) hc)
  have hmlen : ((bytes (nb :: bs)).take n.toNat).length = n.toNat := by
    rw [length_take, length_bytes, min_eq_left hle]
  have hagree : (memory junk nb.data n.toNat).take 11 = ((bytes (nb :: bs)).take n.toNat).take 11 := by
    rw [memory_take hlen h11, take_take, min_eq_left h11, bytes_cons, take_append_of_le_length hlen]
  obtain ⟨hbuf, hcount, -, cur', hc', hr'⟩ :=
    convM2S_Rread (by rw [length_memory, hmlen]) (by rw [length_memory]; exact h11)
    hagree (by rw [gbit8_eq]; exact hmem4 _ (by omega)) hc hn
  -- `convM2S` has not changed the block
  have hsame : cur.buf.take nb.len ++ nb.data.drop n.toNat = nb.data := by
    rw [hbuf, Block.len]
    by_cases hcmp : n.toNat ≤ nb.data.length
    · rw [memory_of_le hcmp, take_take, Nat.min_eq_right hcmp, take_append_drop]
    · rw [memory_take (le_refl _) (by omega), drop_eq_nil_of_le (by omega), append_nil, List.take_length]
  rw [hsame]
  obtain ⟨xs, q', hrun, hxs, hq'⟩ := hang_spec 11 n.toNat (nb :: bs) [] (by simp) (by omega)
    (by simpa [Block.len] using hlen) (by omega)
  have hfirst : gbit32 ((bytes (nb :: bs)).take n.toNat) = n := by
    rw [gbit32_take (by omega) (by rw [bytes_cons, length_append]; omega), bytes_cons, gbit32_append (by omega), hsize]
  have hdata : bytes xs = ((bytes (nb :: bs)).take n.toNat).drop 11 := by
    rw [hxs, drop_take]
    congr 1
    omega
  refine ⟨xs, q', hrun, by rw [hq', Int.toNat_natCast], ?_, ?_, ?_⟩
  · rw [hfirst, hmlen]
  · rw [hfirst]
    refine ⟨cur', hc', hn, hr'.symm, fun hne => absurd ?_ hne⟩
    rw [getD_take (lt_of_lt_of_le (by decide) h11), bytes_cons, getD_append_left (lt_of_lt_of_le (by decide) hlen), ht]
  · intro _
    refine ⟨hdata, ?_⟩
    show cur.r.count.toNat = (bytes xs).length
    rw [hdata, length_drop, hmlen]
    omega

theorem good_readMsg (m : Mnt) (f : Fcall Ptr Ptr) (junk : Nat → UInt8) (conn : List Bread)
    (hsize : gbit32 (bytes q) = size) (hpos : size.toNat < 2 ^ 31) (h7 : 7 ≤ qlen q) (hle : size.toNat ≤ qlen q)
    (h11 : (bytes q).getD BIT32SZ 0 = MsgType.Rread.toByte → 11 ≤ qlen q) :
    Good m f q conn (readMsg m { f with type := 0, tag := 0 } junk size ((bytes q).getD BIT32SZ 0) q conn) := by
  have hhlen : (if (bytes q).getD BIT32SZ 0 = MsgType.Rread.toByte then
    ((BIT32SZ + BIT8SZ + BIT16SZ + BIT32SZ : Nat) : Int)
      else size.toNat) ≤ qlen q := by
    split
    · next ht => exact_mod_cast h11 ht
    · exact_mod_cast hle
  obtain ⟨nb, bs, hrun, hbytes, hnb⟩ := pullupqueue_some (ne_nil_of_qlen (by omega)) hhlen
  obtain ⟨n, cur, hc, hcur, hn⟩ := convM2S_inside (memory junk nb.data size.toNat) { f with type := 0, tag := 0 }
  have hqlen : qlen (nb :: bs) = qlen q := by rw [← length_bytes, hbytes, length_bytes]
  unfold readMsg
  rw [toInt_size hpos]
  push_cast at hrun hnb
  dsimp only
  rw [hrun]
  dsimp only
  rw [if_neg (by omega), hc]
  dsimp only
  by_cases hn0 : n = 0
  · rw [if_pos hn0]
    refine ⟨trivial, rfl, rfl, ?_⟩
    rw [← length_bytes, bytes_qdiscard, length_drop, hbytes, length_bytes]
    omega
  rw [if_neg hn0]
  have hsize7 : 7 ≤ size.toNat := by
    by_contra hlt
    exact hn0 (convM2S_short (by rw [length_memory]; omega) hc)
  have hnb7 : 7 ≤ nb.data.length := by
    simp only [Block.len] at hnb
    split at hnb
    · exact_mod_cast Int.le_trans (by decide : (7 : Int) ≤ _) hnb
    · omega
  have hnbsize : gbit32 nb.data = size := by
    rw [← hsize, ← hbytes, bytes_cons, gbit32_append (by omega)]
  have hnsize : n = size := by
    obtain ⟨hn, -⟩ := hn.resolve_left hn0
    rw [hn, memory_take (show BIT32SZ ≤ _ by simp only [BIT32SZ]; omega) (by simp only [BIT32SZ]; omega),
      gbit32_take (by decide) (by omega), hnbsize]
  have htype : (bytes q).getD BIT32SZ 0 = nb.data.getD BIT32SZ 0 := by
    rw [← hbytes, bytes_cons, getD_append_left (lt_of_lt_of_le (by decide) hnb7)]
  -- in both cases the rest of the queue follows the message
  have hgood : ∀ b q', bytes q' = (bytes (nb :: bs)).drop size.toNat →
      Decodes ((bytes (nb :: bs)).take size.toNat) f ⟨cur.r, cur.buf, b⟩ →
      Good m f q conn (.ok ⟨cur.r, cur.buf, b⟩, { m with q := q', conn }) := by
    intro b q' hq' hdec
    refine ⟨⟨(bytes (nb :: bs)).take size.toNat, ?_, hdec⟩, rfl, rfl, ?_⟩
    · rw [Mnt.stream, hq', ← append_assoc, take_append_drop, hbytes]
    · rw [← length_bytes, hq', length_drop, length_bytes, hqlen]
      omega
  by_cases ht : (bytes q).getD BIT32SZ 0 = MsgType.Rread.toByte
  · rw [if_pos ht] at hnb ⊢
    obtain ⟨b, q', hhang, hq', hdec⟩ := decodes_Rread bs (by exact_mod_cast hnb) (hqlen ▸ hle) hnbsize hn0
      (htype ▸ ht) hc hnsize
    have hhang : hang (((BIT32SZ : Int) + BIT8SZ + BIT16SZ + BIT32SZ).toNat) size.toNat _ [] = some (b, q') := hhang
    rw [hhang]
    exact hgood b q' hq' hdec
  · rw [if_neg ht] at hnb ⊢
    obtain ⟨b, q', hhang, hq', hdec⟩ := decodes_other bs (by exact_mod_cast hnb) hsize7 hnbsize hn0
      (htype ▸ ht) (by rw [hcur, length_memory]) hc hnsize
    rw [Int.toNat_natCast, hhang]
    exact hgood b q' hq' hdec

theorem bad_readMsg (m : Mnt) (f : Fcall Ptr Ptr) (junk : Nat → UInt8) (t : UInt8) (conn : List Bread)
    (h : qlen q < size.toNat) :
    ∃ o m', readMsg m f junk size t q conn = (o, m') ∧ (o = .nilptr ∨ o = .overrun) := by
  unfold readMsg
  dsimp only
  generalize (if t = MsgType.Rread.toByte then
    (BIT32SZ + BIT8SZ + BIT16SZ + BIT32SZ : Int) else size.toInt32.toInt) = hlen
  by_cases hne : q = []
  · subst hne
    exact ⟨_, _, rfl, .inl rfl⟩
  by_cases hle : hlen ≤ qlen q
  · obtain ⟨nb, bs, hrun, hbytes, -⟩ := pullupqueue_some hne hle
    have hqlen : qlen (nb :: bs) = qlen q := by rw [← length_bytes, hbytes, length_bytes]
    rw [hrun]
    dsimp only
    rw [if_pos (by omega)]
    exact ⟨_, _, rfl, .inr rfl⟩
  · rw [pullupqueue_none (by omega)]
    exact ⟨_, _, rfl, .inl rfl⟩

end

theorem doread_done {len : Int} {q : List Block} {conn : List Bread} (h : len ≤ qlen q) :
    doread len q conn = some (.done, q, conn) := by
  cases conn <;> simp only [doread, if_neg (Int.not_lt.2 h)]

theorem doread_bound {len : Int} {q q' : List Block} {conn conn' : List Bread} {r : Read} {k n : Nat} (hlen : len ≤ n)
    (hconn : ∀ bs, .blocks bs ∈ conn → qlen bs ≤ k) (hq : qlen q ≤ n + k)
    (h : doread len q conn = some (r, q', conn')) :
    qlen q' ≤ n + k ∧ ∀ bs, .blocks bs ∈ conn' → qlen bs ≤ k := by
  induction conn generalizing q with
  | nil =>
    simp only [doread] at h
    split at h <;> cases h
    exact ⟨hq, hconn⟩
  | cons b conn ih =>
    have hconn' : ∀ bs, .blocks bs ∈ conn → qlen bs ≤ k := fun bs hbs => hconn bs (mem_cons_of_mem _ hbs)
    simp only [doread] at h
    split at h
    · next hlt =>
      cases b with
      | error => cases h; exact ⟨hq, hconn'⟩
      | nil => cases h; exact ⟨hq, hconn'⟩
      | blocks bs =>
        have hbs := hconn bs (mem_cons_self ..)
        dsimp only at h
        split at h
        · cases h
          exact ⟨hq, hconn'⟩
        · exact ih hconn' (by rw [qlen_append]; omega) h
    · cases h
      exact ⟨hq, hconn⟩

theorem header_le {n : Nat} : header ≤ n ↔ 7 ≤ n := by
  simp only [header, BIT32SZ, BIT8SZ, BIT16SZ]
  omega

/-- The bounds of `mntversion`, and what they mean for the queue. -/
structure Inv (m : Mnt) : Prop where
  low : 256 ≤ m.msize
  high : m.msize ≤ 1024 * 1024
  q : qlen m.q ≤ m.msize + m.msize
  conn : ∀ bs, .blocks bs ∈ m.conn → qlen bs ≤ m.msize

section
variable {m m' : Mnt} {f : Fcall Ptr Ptr} {junk : Nat → UInt8} {x : Outcome × Mnt} {q bs : List Block} {nb : Block}
  {conn : List Bread}

theorem readRest_sound (hm : Inv m) (hq : qlen (nb :: bs) ≤ m.msize + m.msize) (hconn : ∀ bs, .blocks bs ∈ conn →
    qlen bs ≤ m.msize)
    (hnb : 7 ≤ nb.data.length) (hpos : (gbit32 nb.data).toNat < 2 ^ 31)
    (h11 : nb.data.getD BIT32SZ 0 = MsgType.Rread.toByte → (gbit32 nb.data).toNat ≤ m.msize →
      ∀ q' conn', doread (gbit32 nb.data).toNat (nb :: bs) conn = some (.done, q', conn') →
        11 ≤ (gbit32 nb.data).toNat ∨ 11 ≤ qlen q')
    (h : readRest m { f with type := 0, tag := 0 } junk nb bs conn = some x) :
    Inv x.2 ∧ Meets (bytes (nb :: bs) ++ connBytes conn) f x := by
  unfold readRest at h
  dsimp only at h
  rw [toInt_size hpos] at h
  split at h
  · cases h
    exact ⟨⟨hm.low, hm.high, zero_le, hconn⟩, trivial⟩
  next hmsize =>
  have hmsize : (gbit32 nb.data).toNat ≤ m.msize := by omega
  cases hrd : doread (gbit32 nb.data).toNat (nb :: bs) conn with
  | none =>
    rw [hrd] at h
    cases h
  | some y =>
    obtain ⟨r, q', conn'⟩ := y
    obtain ⟨hq', hconn'⟩ := doread_bound (Int.ofNat_le.2 hmsize) hconn hq hrd
    rw [hrd] at h
    cases r with
    | eof | error =>
      cases h
      exact ⟨⟨hm.low, hm.high, hq', hconn'⟩, trivial⟩
    | done =>
      obtain ⟨y, rfl, hylen, hy⟩ := doread_spec hrd
      have hbytes : bytes (nb :: bs ++ y) = nb.data ++ (bytes bs ++ bytes y) := by
        rw [bytes_append, bytes_cons, append_assoc]
      have hlen : qlen (nb :: bs ++ y) = nb.data.length + (qlen bs + qlen y) := by
        rw [qlen_append, qlen_cons, add_assoc, Block.len]
      have htype : (bytes (nb :: bs ++ y)).getD BIT32SZ 0 = nb.data.getD BIT32SZ 0 := by
        rw [hbytes, getD_append_left (lt_of_lt_of_le (by decide) hnb)]
      have hgood := good_readMsg m f junk conn' (q := nb :: bs ++ y)
        (by rw [hbytes, gbit32_append (by omega)]) hpos (by omega) (by omega) (by
          rw [htype]
          intro ht
          rcases h11 ht hmsize _ _ hrd with h11 | h11 <;> omega)
      rw [htype, Option.some.inj h] at hgood
      refine ⟨⟨hgood.msize ▸ hm.low, hgood.msize ▸ hm.high, ?_, ?_⟩, ?_⟩
      · rw [hgood.msize]
        exact le_trans hgood.qlen hq'
      · rw [hgood.msize, hgood.conn]
        exact hconn'
      · have hmeets := hgood.meets
        rwa [bytes_append, append_assoc, hy] at hmeets

theorem mntrpcread_header (f : Fcall Ptr Ptr) (junk : Nat → UInt8)
    (h : doread header m.q m.conn = some (.done, q, conn)) :
    ∃ nb bs, bytes (nb :: bs) = bytes q ∧ qlen (nb :: bs) = qlen q ∧ 7 ≤ nb.data.length ∧ gbit32 nb.data = gbit32
    (bytes q) ∧
      nb.data.getD BIT32SZ 0 = (bytes q).getD BIT32SZ 0 ∧
      mntrpcread m f junk = readRest m { f with type := 0, tag := 0 } junk nb bs conn := by
  obtain ⟨x, -, hlen, -⟩ := doread_spec h
  have h7 := header_le.1 hlen
  obtain ⟨nb, bs, hrun, hbytes, hnb⟩ := pullupqueue_some (ne_nil_of_qlen (by omega)) hlen
  have hnb : 7 ≤ nb.data.length := header_le.1 hnb
  refine ⟨nb, bs, hbytes, ?_, hnb, ?_, ?_, ?_⟩
  · rw [← length_bytes, hbytes, length_bytes]
  · rw [← hbytes, bytes_cons, gbit32_append (by omega)]
  · rw [← hbytes, bytes_cons, getD_append_left (lt_of_lt_of_le (by decide) hnb)]
  · unfold mntrpcread
    dsimp only
    rw [h]
    dsimp only
    rw [hrun]

theorem mntrpcread_sound (hm : Inv m) (hs : Sound m) (h : mntrpcread m f junk = some x) :
    Inv x.2 ∧ Meets m.stream f x := by
  cases hrd : doread header m.q m.conn with
  | none =>
    unfold mntrpcread at h
    dsimp only at h
    rw [hrd] at h
    cases h
  | some y =>
    obtain ⟨r, q, conn⟩ := y
    have hhdr : header ≤ m.msize := header_le.2 (le_trans (by decide) hm.low)
    obtain ⟨hq, hconn⟩ := doread_bound hhdr hm.conn hm.q hrd
    cases r with
    | eof | error =>
      unfold mntrpcread at h
      dsimp only at h
      rw [hrd] at h
      cases h
      exact ⟨⟨hm.low, hm.high, hq, hconn⟩, trivial⟩
    | done =>
      obtain ⟨y, rfl, -, hy⟩ := doread_spec hrd
      obtain ⟨hpos, h11⟩ := hs _ _ hrd
      obtain ⟨nb, bs, hbytes, hqlen, hnb, hsize, htype, hcall⟩ := mntrpcread_header f junk hrd
      rw [← hsize] at hpos h11
      rw [← htype] at h11
      rw [hcall] at h
      obtain ⟨hinv, hmeets⟩ := readRest_sound hm (hqlen ▸ hq) hconn hnb hpos (fun ht hle q' conn' hrd' => by
        obtain ⟨p', hp', hplen⟩ := doread_congr hqlen.symm hrd'
        rw [← hplen]
        exact h11 ht hle p' conn' hp') h
      refine ⟨hinv, ?_⟩
      rwa [hbytes, bytes_append, append_assoc, hy] at hmeets

theorem mntrpcread_unsound (f : Fcall Ptr Ptr) (junk : Nat → UInt8) (hm : Inv m) (hs : ¬ Sound m) :
    ∃ o m', mntrpcread m f junk = some (o, m') ∧ (o = .nilptr ∨ o = .overrun) := by
  unfold Sound at hs
  push Not at hs
  obtain ⟨q, conn, hrd, hs⟩ := hs
  obtain ⟨nb, bs, hbytes, hqlen, hnb, hsize, htype, hcall⟩ := mntrpcread_header f junk hrd
  have hhdr : header ≤ m.msize := header_le.2 (le_trans (by decide) hm.low)
  obtain ⟨hq, -⟩ := doread_bound hhdr hm.conn hm.q hrd
  have hhigh := hm.high
  rw [← hsize, ← htype] at hs
  rw [hcall]
  unfold readRest
  dsimp only
  by_cases hpos : (gbit32 nb.data).toNat < 2 ^ 31
  · obtain ⟨ht, hle, q', conn', hrd', h11, h11'⟩ := hs hpos
    obtain ⟨p', hp', hplen⟩ := doread_congr hqlen hrd'
    rw [toInt_size hpos, if_neg (by omega), hp']
    dsimp only
    refine ⟨.nilptr, { m with q := [], conn := conn' }, ?_, .inl rfl⟩
    unfold readMsg
    dsimp only
    rw [if_pos ht, pullupqueue_none (by rw [hplen]; exact_mod_cast h11')]
  · have hneg := toInt_neg (le_of_not_gt hpos)
    rw [if_neg (by omega), doread_done (by omega)]
    dsimp only
    obtain ⟨o, m', hrun, ho⟩ := bad_readMsg m { f with type := 0, tag := 0 } junk (nb.data.getD BIT32SZ 0) conn
      (show qlen (nb :: bs) < (gbit32 nb.data).toNat by omega)
    exact ⟨o, m', by rw [hrun], ho⟩

theorem framed_iff_sound (hm : Inv m) : Framed m f junk ↔ Sound m := by
  constructor
  · intro h
    by_contra hs
    obtain ⟨o, m', hrun, ho⟩ := mntrpcread_unsound f junk hm hs
    have hmeets := h _ hrun
    rcases ho with rfl | rfl <;> exact hmeets
  · intro hs x hrun
    exact (mntrpcread_sound hm hs hrun).2

theorem inv_call {c : Fcall Ptr Ptr × (Nat → UInt8)} (hm : Inv m) (h : call m c = some m') : Inv m' := by
  have hreturn : ∀ o, mntrpcread m c.1 c.2 = some (o, m') → o ≠ .nilptr → o ≠ .overrun → Inv m' := by
    intro o hrun hnil hover
    by_cases hs : Sound m
    · exact (mntrpcread_sound hm hs hrun).1
    · obtain ⟨o', m₁, hrun', ho'⟩ := mntrpcread_unsound c.1 c.2 hm hs
      cases hrun.symm.trans hrun'
      rcases ho' with rfl | rfl
      · exact absurd rfl hnil
      · exact absurd rfl hover
  unfold call at h
  split at h
  · next hrun => cases h; exact hreturn _ hrun nofun nofun
  · next hrun => cases h; exact hreturn _ hrun nofun nofun
  · next hrun => cases h; exact hreturn _ hrun nofun nofun
  · cases h

end

/-- A connection after `mntversion`. -/
structure Fresh (m : Mnt) : Prop where
  low : 256 ≤ m.msize
  high : m.msize ≤ 1024 * 1024
  q : m.q = []
  /-- `bread` was asked for `msize` bytes -/
  conn : ∀ bs, .blocks bs ∈ m.conn → qlen bs ≤ m.msize

theorem Fresh.inv {m : Mnt} (h : Fresh m) : Inv m :=
  ⟨h.low, h.high, by rw [h.q]; exact zero_le, h.conn⟩

/-- After any calls, the next one does what it should exactly if what comes next is sound. -/
theorem framed_iff {m₀ m : Mnt} {calls : List (Fcall Ptr Ptr × (Nat → UInt8))} (h₀ : Fresh m₀)
    (hrun : run call m₀ calls = some m) (f : Fcall Ptr Ptr) (junk : Nat → UInt8) : Framed m f junk ↔ Sound m := by
  have hinv : Inv m := (always_of_step (fun s c s' hs hcall => inv_call hs hcall) h₀.inv).last hrun
  exact framed_iff_sound hinv

/-- An `Rclunk` comes first, and then an `Rread` of two bytes in three parts. -/
def readAfterClunk : Mnt where
  msize := 8192
  q := []
  conn := [.blocks [⟨[7, 0, 0, 0, 121, 1, 0, 13, 0], 0⟩], .blocks [⟨[0, 0, 117, 2, 0, 2, 0], 0⟩, ⟨[0, 0, 65], 0⟩],
    .blocks [⟨[66], 0⟩]]

theorem framed_iff_readAfterClunk :
    ∃ m, Fresh readAfterClunk ∧ run call readAfterClunk [(default, fun _ => 0)] = some m ∧ Framed m default
    (fun _ => 0) := by
  have hfresh : Fresh readAfterClunk := by
    refine ⟨by decide, by decide, rfl, fun bs hbs => ?_⟩
    simp only [readAfterClunk, List.mem_cons, Bread.blocks.injEq, List.not_mem_nil, or_false] at hbs
    rcases hbs with rfl | rfl | rfl <;> decide
  have hrun : run call readAfterClunk [(default, fun _ => 0)] = some _ := rfl
  refine ⟨_, hfresh, hrun, (framed_iff hfresh hrun _ _).2 fun q conn hrd => ?_⟩
  cases hrd
  refine ⟨by decide, fun _ _ q' conn' _ => .inl (by decide)⟩

def shortRread : Mnt where
  msize := 8192
  q := []
  conn := [.blocks [⟨[7, 0, 0, 0, 117, 1, 0], 0⟩]]

def negativeSize : Mnt where
  msize := 8192
  q := []
  conn := [.blocks [⟨[7, 0, 0, 128, 121, 1, 0], 0⟩]]

theorem not_framed_shortRread :
    (Fresh shortRread ∧ ¬ Framed shortRread default fun _ => 0) ∧ Fresh negativeSize ∧
    ¬ Framed negativeSize default fun _ => 0 := by
  have hfresh : ∀ b : Block, b.len ≤ 8192 → Fresh ⟨8192, [], [.blocks [b]]⟩ := by
    refine fun b hb => ⟨show 256 ≤ 8192 by decide, show 8192 ≤ 1024 * 1024 by decide, rfl, fun bs hbs => ?_⟩
    simp only [List.mem_singleton, Bread.blocks.injEq] at hbs
    subst hbs
    simpa using hb
  exact ⟨⟨hfresh _ (by decide), fun h => h (.nilptr, _) rfl⟩, hfresh _ (by decide), fun h => h (.overrun, _) rfl⟩

end Node9.MntRead
