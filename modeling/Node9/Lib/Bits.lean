import Mathlib

/-!
# Masks, shifts and ors as arithmetic
-/

namespace Bits

theorem or_eq_add {x y m : Nat} (k : Nat) (hm : 2 ^ k = m) (hx : x % m = 0) (hy : y < m) : x ||| y = x + y := by
  subst hm
  obtain ⟨q, rfl⟩ := Nat.dvd_of_mod_eq_zero hx
  rw [Nat.mul_comm, ← Nat.shiftLeft_eq]
  exact (Nat.shiftLeft_add_eq_or_of_lt hy q).symm

theorem mask {m n : Nat} (k x : Nat) (hn : 2 ^ k = n) (hm : n - 1 = m) : m &&& x = x % n := by
  subst hn hm
  rw [Nat.and_comm, Nat.and_two_pow_sub_one_eq_mod]

theorem mask_shiftLeft {m n q : Nat} (k i x : Nat) (hn : 2 ^ k = n) (hq : 2 ^ i = q) (hm : (n - 1) * q = m) :
    m &&& (x <<< i) = x % n * q := by
  subst hq hm
  rw [← Nat.shiftLeft_eq, ← Nat.shiftLeft_and_distrib, mask k x hn rfl, Nat.shiftLeft_eq]

theorem shiftRight {x : Nat} (k : Nat) {n : Nat} (hn : 2 ^ k = n) : x >>> k = x / n := by
  rw [← hn, Nat.shiftRight_eq_div_pow]

/-- The low bits of `x`, and behind them the high bits of `y`. -/
theorem join {m m' n q q' : Nat} (k i j x : Nat) {y : Nat} (hn : 2 ^ k = n) (hq : 2 ^ i = q) (hq' : 2 ^ j = q')
    (hm : (n - 1) * q = m) (hm' : q - 1 = m') (hy : y / q' < q) :
    (m &&& (x <<< i)) ||| (m' &&& (y >>> j)) = x % n * q + y / q' := by
  rw [mask_shiftLeft k i x hn hq hm, mask i _ hq hm', shiftRight j hq', Nat.mod_eq_of_lt hy,
    or_eq_add i hq (Nat.mul_mod_left _ _) hy]

end Bits
