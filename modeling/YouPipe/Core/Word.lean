/-
Machine words. `u64` and `usize` (a 64-bit target) are natural numbers below `word`; the operations that can leave the
range reduce modulo `word`, as a release build does. `nextPowerOfTwo` is the standard library's: the least power of two
not below its argument, and 0 when that power is not representable.
-/
import Mathlib.Tactic

namespace YouPipe.Word

def word : ℕ := 2 ^ 64

/-- `u64::MAX` -/
def maxVal : ℕ := word - 1

def wrappingAdd (a b : ℕ) : ℕ := (a + b) % word

def wrappingSub (a b : ℕ) : ℕ := (a + word - b) % word

/-- a subtraction that must not borrow; `none` is the underflow -/
def checkedSub (a b : ℕ) : Option ℕ := if b ≤ a then some (a - b) else none

/-- `usize::checked_mul` -/
def checkedMul (a b : ℕ) : Option ℕ := if a * b < word then some (a * b) else none

/-- `usize::leading_zeros`; 64 for 0 -/
def leadingZeros (n : ℕ) : ℕ := if n = 0 then 64 else 63 - Nat.log2 n

/-- `usize::next_power_of_two` -/
def nextPowerOfTwo (n : ℕ) : ℕ := if n ≤ 1 then 1 else 2 ^ (Nat.log2 (n - 1) + 1) % word

/-- `usize::checked_next_power_of_two` -/
def checkedNextPowerOfTwo (n : ℕ) : Option ℕ := if n ≤ 2 ^ 63 then some (nextPowerOfTwo n) else none

/-! ## Literals -/

-- literals of `ℕ+` and `Fin` ask for these; under a name of their own they are the same proof wherever a literal stands
instance neZero_one : NeZero (1 : ℕ) := ⟨Nat.one_ne_zero⟩

instance neZero_two : NeZero (2 : ℕ) := ⟨two_ne_zero⟩

/-! ## Lemmas -/

theorem wrappingAdd_of_lt {a b : ℕ} (h : a + b < word) : wrappingAdd a b = a + b := Nat.mod_eq_of_lt h

theorem wrappingSub_succ {s : ℕ} (h : s < word) : wrappingSub (s + 1) 1 = s := by
  unfold wrappingSub
  rw [show s + 1 + word - 1 = s + word by omega, Nat.add_mod_right, Nat.mod_eq_of_lt h]

theorem checkedSub_of_le {a b : ℕ} (h : b ≤ a) : checkedSub a b = some (a - b) := if_pos h

/-- of a non-zero word, 63 less the leading zeros is the logarithm rounded down -/
theorem checkedSub_leadingZeros {n : ℕ} (h0 : 1 ≤ n) (h : n < word) : checkedSub (64 - 1) (leadingZeros n) = some (Nat.log2 n) := by
  have hlog : Nat.log2 n < 64 := (Nat.log2_lt (by omega)).2 (by unfold word at h; omega)
  unfold leadingZeros
  rw [if_neg (by omega), checkedSub_of_le (by omega)]
  congr 1
  omega

/-- up to 2^63 the rounding is exact: a power of two between `n` and 2^63 -/
theorem nextPowerOfTwo_spec {n : ℕ} (h : n ≤ 2 ^ 63) :
    ∃ k, k ≤ 63 ∧ nextPowerOfTwo n = 2 ^ k ∧ n ≤ 2 ^ k := by
  unfold nextPowerOfTwo
  split_ifs with h1
  · exact ⟨0, by omega, rfl, by omega⟩
  · have hne : n - 1 ≠ 0 := by omega
    have hlt : Nat.log2 (n - 1) < 63 := (Nat.log2_lt hne).2 (by omega)
    have hle : n - 1 < 2 ^ (Nat.log2 (n - 1) + 1) := Nat.lt_log2_self
    refine ⟨Nat.log2 (n - 1) + 1, by omega, Nat.mod_eq_of_lt ?_, by omega⟩
    exact Nat.pow_lt_pow_right (by norm_num) (by omega)

/-- up to 2^63 the exponent is the logarithm rounded up -/
theorem nextPowerOfTwo_eq_clog {n : ℕ} (h : n ≤ 2 ^ 63) : nextPowerOfTwo n = 2 ^ Nat.clog 2 n := by
  unfold nextPowerOfTwo
  split_ifs with h1
  · rw [Nat.clog_of_right_le_one h1]
    rfl
  · have hne : n - 1 ≠ 0 := by omega
    have hlo : 2 ^ Nat.log2 (n - 1) ≤ n - 1 := Nat.log2_self_le hne
    have hhi : n - 1 < 2 ^ (Nat.log2 (n - 1) + 1) := Nat.lt_log2_self
    have hclog : Nat.clog 2 n = Nat.log2 (n - 1) + 1 := by
      apply le_antisymm
      · exact Nat.clog_le_of_le_pow (by omega)
      · exact (Nat.lt_clog_iff_pow_lt Nat.one_lt_two).2 (by omega)
    have hle : Nat.clog 2 n ≤ 63 := Nat.clog_le_of_le_pow h
    rw [← hclog]
    exact Nat.mod_eq_of_lt (Nat.pow_lt_pow_right Nat.one_lt_two (by omega))

/-- above 2^63 the rounding overflows to 0 -/
theorem nextPowerOfTwo_overflow {n : ℕ} (h : 2 ^ 63 < n) (hn : n ≤ word) : nextPowerOfTwo n = 0 := by
  unfold nextPowerOfTwo
  have hne : n - 1 ≠ 0 := by omega
  have h63 : 63 ≤ Nat.log2 (n - 1) := (Nat.le_log2 hne).2 (by omega)
  have h64 : Nat.log2 (n - 1) < 64 := (Nat.log2_lt hne).2 (by unfold word at hn; omega)
  rw [if_neg (by omega), show Nat.log2 (n - 1) = 63 by omega]
  rfl

/-- the rounded value is a power of two or, on overflow, 0 -/
theorem nextPowerOfTwo_pow_or_zero (n : ℕ) : ∃ k, k ≤ 63 ∧ (nextPowerOfTwo n = 2 ^ k ∨ nextPowerOfTwo n = 0) := by
  unfold nextPowerOfTwo
  split_ifs with h1
  · exact ⟨0, by omega, Or.inl rfl⟩
  · rcases Nat.lt_or_ge (Nat.log2 (n - 1) + 1) 64 with hlt | hge
    · exact ⟨_, by omega, Or.inl (Nat.mod_eq_of_lt (Nat.pow_lt_pow_right (by norm_num) hlt))⟩
    · exact ⟨0, by omega, Or.inr (Nat.mod_eq_zero_of_dvd (Nat.pow_dvd_pow 2 hge))⟩

/-- rounding a power of two changes nothing -/
theorem nextPowerOfTwo_pow {k : ℕ} (h : k ≤ 63) : nextPowerOfTwo (2 ^ k) = 2 ^ k := by
  rcases Nat.eq_zero_or_pos k with rfl | hk
  · rfl
  · have h2 : 2 ≤ 2 ^ k := le_trans (by norm_num) (Nat.pow_le_pow_right (by norm_num) hk)
    have hlog : Nat.log2 (2 ^ k - 1) = k - 1 := by
      have hne : 2 ^ k - 1 ≠ 0 := by omega
      have hlo : k - 1 ≤ Nat.log2 (2 ^ k - 1) := by
        refine (Nat.le_log2 hne).2 ?_
        have : 2 ^ k = 2 * 2 ^ (k - 1) := by rw [← pow_succ', Nat.sub_add_cancel hk]
        have := Nat.one_le_two_pow (n := k - 1)
        omega
      have hhi : Nat.log2 (2 ^ k - 1) < k := (Nat.log2_lt hne).2 (by omega)
      omega
    unfold nextPowerOfTwo
    rw [if_neg (by omega), hlog, Nat.sub_add_cancel hk]
    exact Nat.mod_eq_of_lt (Nat.pow_lt_pow_right (by norm_num) (by omega))

/-- masking with a power of two minus one is reduction modulo that power -/
theorem and_mask {mask k : ℕ} (h : mask + 1 = 2 ^ k) (s : ℕ) : s &&& mask = s % (mask + 1) := by
  rw [show mask = 2 ^ k - 1 by omega, Nat.and_two_pow_sub_one_eq_mod, Nat.sub_add_cancel Nat.one_le_two_pow]

end YouPipe.Word
