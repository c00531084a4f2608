/-
The sleep mask (`pool/sleep_mask.rs`): one bit per worker in an array of 64-bit words, set and cleared by `fetch_or` and
`fetch_and`, and scanned word by word from the lowest set bit.
-/
import Mathlib.Tactic

namespace YouPipe.Pool

def bitsPerWord : ℕ := 64

/-- `split_index`: the word of a worker -/
def wordOf (i : ℕ) : ℕ := i / bitsPerWord

/-- `split_index`: the bit of a worker in its word -/
def bitOf (i : ℕ) : BitVec 64 := 1#64 <<< (i % bitsPerWord)

abbrev SleepMask := ℕ → BitVec 64

namespace SleepMask

def set (m : SleepMask) (i : ℕ) : SleepMask := Function.update m (wordOf i) (m (wordOf i) ||| bitOf i)

def clear (m : SleepMask) (i : ℕ) : SleepMask := Function.update m (wordOf i) (m (wordOf i) &&& ~~~bitOf i)

/-- the words a pool of `n` threads scans -/
def nWords (n : ℕ) : ℕ := (n + bitsPerWord - 1) / bitsPerWord

/-- the worker's bit is set -/
def bit (m : SleepMask) (i : ℕ) : Bool := (m (wordOf i)).getLsbD (i % bitsPerWord)

end SleepMask

/-- `trailing_zeros` of a word that has a set bit -/
def trailingZeros (x : BitVec 64) : ℕ := ((List.range 64).find? fun b => x.getLsbD b).getD 64

/-! ## Bits -/

theorem getLsbD_bitOf (i b : ℕ) (hb : b < 64) : (bitOf i).getLsbD b = decide (b = i % bitsPerWord) := by
  have hi : i % 64 < 64 := Nat.mod_lt i (by decide)
  simp only [bitOf, bitsPerWord, BitVec.getLsbD_shiftLeft, BitVec.getLsbD_one, hb]
  by_cases h : b = i % 64
  · simp [h]
  · simp only [h, decide_false]
    simp
    omega

theorem SleepMask.bit_set (m : SleepMask) (i j : ℕ) : (m.set i).bit j = (m.bit j || decide (j = i)) := by
  have hj : j % bitsPerWord < 64 := Nat.mod_lt j (by decide)
  by_cases hw : wordOf j = wordOf i
  · have hij : decide (j % bitsPerWord = i % bitsPerWord) = decide (j = i) := by
      apply decide_eq_decide.2
      simp only [wordOf, bitsPerWord] at hw ⊢
      omega
    simp only [bit, set, hw, Function.update_self, BitVec.getLsbD_or, getLsbD_bitOf i _ hj, hij]
  · have hij : j ≠ i := fun h => hw (congrArg wordOf h)
    simp [bit, set, hij, Function.update_of_ne hw]

theorem SleepMask.bit_clear (m : SleepMask) (i j : ℕ) : (m.clear i).bit j = (m.bit j && !decide (j = i)) := by
  have hj : j % bitsPerWord < 64 := Nat.mod_lt j (by decide)
  by_cases hw : wordOf j = wordOf i
  · have hij : decide (j % bitsPerWord = i % bitsPerWord) = decide (j = i) := by
      apply decide_eq_decide.2
      simp only [wordOf, bitsPerWord] at hw ⊢
      omega
    simp only [bit, clear, hw, Function.update_self, BitVec.getLsbD_and, BitVec.getLsbD_not, getLsbD_bitOf i _ hj, hij, hj]
    simp
  · have hij : j ≠ i := fun h => hw (congrArg wordOf h)
    simp [bit, clear, hij, Function.update_of_ne hw]

/-- the lowest set bit is a set bit -/
theorem trailingZeros_spec {x : BitVec 64} (hx : x ≠ 0#64) : trailingZeros x < 64 ∧ x.getLsbD (trailingZeros x) = true := by
  obtain ⟨b, hb, hbit⟩ : ∃ b < 64, x.getLsbD b = true := by
    by_contra hno
    apply hx
    apply BitVec.eq_of_getLsbD_eq
    intro i hi
    rw [BitVec.getLsbD_zero]
    by_contra hbit
    exact hno ⟨i, hi, by simpa using hbit⟩
  obtain ⟨c, hc⟩ : ∃ c, (List.range 64).find? (fun b => x.getLsbD b) = some c :=
    Option.isSome_iff_exists.1 (List.find?_isSome.2 ⟨b, List.mem_range.2 hb, hbit⟩)
  have hz : trailingZeros x = c := by rw [trailingZeros, hc, Option.getD_some]
  rw [hz]
  have hpred := List.find?_some hc
  exact ⟨List.mem_range.1 (List.mem_of_find?_eq_some hc), hpred⟩

/-- a worker whose bit is set makes its word nonzero -/
theorem SleepMask.word_ne_zero {m : SleepMask} {i : ℕ} (h : m.bit i = true) : m (wordOf i) ≠ 0#64 := by
  intro hz
  simp [bit, hz] at h

end YouPipe.Pool
