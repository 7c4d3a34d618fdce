import Node9.Lib.Buf

/-!
# SHA-1 and its keyed hash (`sha1.c`, `sha1block.c` and `hmac.c` of libsec)

`hmac_sha1` leaves the digest of its caller as it is when the key is longer than a block, or when there is no
memory for a digest state. `mac` is the keyed hash of RFC 2104, in which such a key is hashed first; where the
code computes one it is this one (`hmac_sha1_eq`).
-/

namespace Node9.Hmac
open Buf

def SHA1dlen : Nat := 20

abbrev Digest := Vector UInt8 SHA1dlen

structure Words where
  a : UInt32
  b : UInt32
  c : UInt32
  d : UInt32
  e : UInt32
  deriving DecidableEq

def rotl (x n : UInt32) : UInt32 := (x <<< n) ||| (x >>> (32 - n))

/-- One step, with the names of the words moved on by one. -/
def round (s : Words) (k f w : UInt32) : Words := ⟨s.e + (rotl s.a 5 + w) + (k + f), s.a, rotl s.b 30, s.c, s.d⟩

def step (t : Nat) (w : UInt32) (s : Words) : Words :=
  if t < 20 then round s 0x5a827999 (((s.c ^^^ s.d) &&& s.b) ^^^ s.d) w
  else if t < 40 then round s 0x6ed9eba1 (s.b ^^^ s.c ^^^ s.d) w
  else if t < 60 then round s 0x8f1bbcdc ((s.b &&& s.c) ||| ((s.b ||| s.c) &&& s.d)) w
  else round s 0xca62c1d6 (s.b ^^^ s.c ^^^ s.d) w

def rounds : Nat → List UInt32 → Words → Words
  | _, [], s => s
  | t, w :: ws, s => rounds (t + 1) ws (step t w s)

def word (p : Bytes) : UInt32 :=
  ((p.getD 0 0).toUInt32 <<< 24) ||| ((p.getD 1 0).toUInt32 <<< 16) ||| ((p.getD 2 0).toUInt32 <<< 8) |||
    (p.getD 3 0).toUInt32

/-- The words of `w`, the last one first, after `n` more. -/
def expand : Nat → List UInt32 → List UInt32
  | 0, ws => ws
  | n + 1, ws => expand n (rotl (ws.getD 2 0 ^^^ ws.getD 7 0 ^^^ ws.getD 13 0 ^^^ ws.getD 15 0) 1 :: ws)

def schedule (p : Bytes) : List UInt32 :=
  (expand 64 ((List.range 16).map fun i => word (p.drop (4 * i))).reverse).reverse

/-- `_sha1block` for one block of 64 bytes. -/
def sha1block (p : Bytes) (s : Words) : Words :=
  let r := rounds 0 (schedule p) s
  ⟨s.a + r.a, s.b + r.b, s.c + r.c, s.d + r.d, s.e + r.e⟩

/-- `buf` has `blen` bytes. -/
structure DigestState where
  len : UInt64
  state : Words
  buf : Bytes

def DigestState.start : DigestState := ⟨0, ⟨0x67452301, 0xefcdab89, 0x98badcfe, 0x10325476, 0xc3d2e1f0⟩, []⟩

/-- All the whole blocks of `p`, and what is left over. -/
def blocks (p : Bytes) (len : UInt64) (state : Words) : DigestState :=
  if 64 ≤ p.length then blocks (p.drop 64) (len + 64) (sha1block (p.take 64) state) else ⟨len, state, p⟩
termination_by p.length
decreasing_by simp only [List.length_drop]; omega

/-- `sha1` with a nil digest. -/
def sha1 (p : Bytes) (s : DigestState) : DigestState := blocks (s.buf ++ p) s.len s.state

def encode (x : UInt32) : Bytes :=
  [(x >>> 24).toUInt8, (x >>> 16).toUInt8, (x >>> 8).toUInt8, x.toUInt8]

def Words.encode (s : Words) : Digest :=
  let w := [s.a, s.b, s.c, s.d, s.e].flatMap Hmac.encode
  Vector.ofFn fun i => w.getD i 0

/-- The last time through: pad with 0x80, 0's, and the input count. -/
def sha1Last (p : Bytes) (s : DigestState) : Digest :=
  let s := sha1 p s
  let n := s.buf.length
  let len := s.len + UInt64.ofNat n
  let pad := (0x80 : UInt8) :: List.replicate ((if n < 56 then 56 - n else 120 - n) - 1) 0
  let x := encode (len >>> 29).toUInt32 ++ encode (len <<< 3).toUInt32
  (blocks (s.buf ++ pad ++ x) len s.state).state.encode

/-- A block with the key exclusive-ored into it. -/
def keyPad (c : UInt8) (key : Bytes) : Bytes := (List.range 64).map fun i => c ^^^ key.getD i 0

/-- `hmac_x` for `sha1` without a state, the digest if it is written; `mem` says which allocations succeed. -/
def hmac_sha1 (mem : Nat → Bool) (p key : Bytes) : Option Digest :=
  if key.length > 64 then none
  else if !mem 0 then none
  else
    let s := sha1 p (sha1 (keyPad 0x36 key) .start)
    let innerdigest := (sha1Last [] s).toList
    if mem 1 then some (sha1Last innerdigest (sha1 (keyPad 0x5c key) .start))
    else if mem 2 then some (sha1Last innerdigest .start)
    else none

def hash (p : Bytes) : Digest := sha1Last p .start

def mac (key p : Bytes) : Digest :=
  let k := if key.length > 64 then (hash key).toList else key
  hash (keyPad 0x5c k ++ (hash (keyPad 0x36 k ++ p)).toList)

theorem blocks_append (p q : Bytes) (len : UInt64) (state : Words) :
    blocks (p ++ q) len state = sha1 q (blocks p len state) := by
  induction hn : p.length using Nat.strong_induction_on generalizing p len state with
  | _ n ih =>
    by_cases h : 64 ≤ p.length
    · have hl : blocks (p ++ q) len state = blocks (p.drop 64 ++ q) (len + 64) (sha1block (p.take 64) state) := by
        rw [blocks, if_pos (by rw [List.length_append]; omega), List.drop_append_of_le_length h,
          List.take_append_of_le_length h]
      have hr : blocks p len state = blocks (p.drop 64) (len + 64) (sha1block (p.take 64) state) := by
        rw [blocks, if_pos h]
      rw [hl, hr]
      exact ih _ (by rw [List.length_drop]; omega) _ _ _ rfl
    · have hp : blocks p len state = ⟨len, state, p⟩ := by rw [blocks, if_neg h]
      rw [hp]
      rfl

theorem sha1_append (p q : Bytes) (s : DigestState) : sha1 q (sha1 p s) = sha1 (p ++ q) s := by
  show sha1 q (blocks (s.buf ++ p) s.len s.state) = blocks (s.buf ++ (p ++ q)) s.len s.state
  rw [← List.append_assoc]
  exact (blocks_append _ _ _ _).symm

theorem sha1Last_sha1 (p q : Bytes) (s : DigestState) : sha1Last q (sha1 p s) = sha1Last (p ++ q) s := by
  unfold sha1Last
  rw [sha1_append]

theorem hmac_sha1_eq {mem : Nat → Bool} {key : Bytes} (p : Bytes) (hkey : key.length ≤ 64) (h0 : mem 0 = true)
    (h1 : mem 1 = true) : hmac_sha1 mem p key = some (mac key p) := by
  have hk : ¬ key.length > 64 := Nat.not_lt.2 hkey
  unfold hmac_sha1 mac hash
  rw [if_neg hk, if_neg (by rw [h0]; decide), if_pos h1, if_neg hk]
  rw [sha1Last_sha1, sha1_append, sha1Last_sha1, List.append_nil]

end Node9.Hmac
