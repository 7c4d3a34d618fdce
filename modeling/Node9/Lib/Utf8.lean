import Mathlib

/-!
# UTF-8

The shortest form of a scalar value, by division. `Valid` texts are runs of them.
-/

namespace Utf8

def Scalar (c : Nat) : Prop := c ≤ 0x10FFFF ∧ (c < 0xD800 ∨ 0xDFFF < c)

instance (c : Nat) : Decidable (Scalar c) := inferInstanceAs (Decidable (_ ∧ _))

/-- The last `k` bytes of a sequence: six bits in each, the high ones first. -/
def tails (c : Nat) : Nat → List UInt8
  | 0 => []
  | k + 1 => UInt8.ofNat (0x80 + c / 64 ^ k % 64) :: tails c k

/-- How many bytes the sequence of `c` has after the first. -/
def extra (c : Nat) : Nat :=
  if c < 0x80 then 0 else if c < 0x800 then 1 else if c < 0x10000 then 2 else 3

/-- What the first byte holds besides the bits of `c`. -/
def lead : Nat → Nat
  | 0 => 0
  | 1 => 0xC0
  | 2 => 0xE0
  | _ => 0xF0

def encode (c : Nat) : List UInt8 := UInt8.ofNat (lead (extra c) + c / 64 ^ extra c) :: tails c (extra c)

/-- A text: the sequences of some scalar values. -/
def Valid (s : List UInt8) : Prop := ∃ cs : List Nat, (∀ c ∈ cs, Scalar c) ∧ s = cs.flatMap encode

variable {c : Nat}

@[simp] theorem tails_length : ∀ (k : Nat), (tails c k).length = k
  | 0 => rfl
  | k + 1 => congrArg (· + 1) (tails_length k)

@[simp] theorem encode_length : (encode c).length = extra c + 1 :=
  congrArg (· + 1) (tails_length (extra c))

theorem extra_le : extra c ≤ 3 := by
  unfold extra
  split_ifs <;> decide

theorem extra_one (h : c < 0x80) : extra c = 0 := if_pos h

theorem extra_two (h : 0x80 ≤ c) (h' : c < 0x800) : extra c = 1 := by
  rw [extra, if_neg (Nat.not_lt.2 h), if_pos h']

theorem extra_three (h : 0x800 ≤ c) (h' : c < 0x10000) : extra c = 2 := by
  rw [extra, if_neg (by omega), if_neg (Nat.not_lt.2 h), if_pos h']

theorem extra_four (h : 0x10000 ≤ c) : extra c = 3 := by
  rw [extra, if_neg (by omega), if_neg (by omega), if_neg (Nat.not_lt.2 h)]

theorem encode_one (h : c < 0x80) : encode c = [UInt8.ofNat c] := by
  simp [encode, extra_one h, tails, lead]

theorem encode_two (h : 0x80 ≤ c) (h' : c < 0x800) :
    encode c = [UInt8.ofNat (0xC0 + c / 64), UInt8.ofNat (0x80 + c % 64)] := by
  simp [encode, extra_two h h', tails, lead]

theorem encode_three (h : 0x800 ≤ c) (h' : c < 0x10000) : encode c =
    [UInt8.ofNat (0xE0 + c / 4096), UInt8.ofNat (0x80 + c / 64 % 64), UInt8.ofNat (0x80 + c % 64)] := by
  simp [encode, extra_three h h', tails, lead]

theorem encode_four (h : 0x10000 ≤ c) : encode c =
    [UInt8.ofNat (0xF0 + c / 262144), UInt8.ofNat (0x80 + c / 4096 % 64), UInt8.ofNat (0x80 + c / 64 % 64),
      UInt8.ofNat (0x80 + c % 64)] := by
  simp [encode, extra_four h, tails, lead]

end Utf8
