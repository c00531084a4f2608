/-
The packed counter word of the pool's sleep module (`pool/sleep.rs`, 64-bit targets): 9 bits of sleeping threads, 9 bits of
inactive threads and above them 46 bits of jobs event counter.

`pack` builds a word from its three fields. Each operation on the word is shown to be the operation on its own field, with no
carry or borrow into a neighbour as long as the two thread fields stay below 2^9; the jobs event counter wraps at the top of
the word.
-/
import Mathlib.Tactic
import YouPipe.Core.Word

namespace YouPipe.Pool

open YouPipe.Word

/-! ## Layout -/

def threadsBits : ℕ := 9

def threadsMax : ℕ := 2 ^ threadsBits - 1

/-- `Registry::new` clamps the requested pool size -/
def numThreads (requested : ℕ) : ℕ := min (max requested 1) threadsMax

def oneSleeping : ℕ := 1

def oneInactive : ℕ := 2 ^ threadsBits

def oneJec : ℕ := 2 ^ (2 * threadsBits)

/-- `select_thread` at a shift of `threadsBits * k` -/
def selectThread (w shift : ℕ) : ℕ := (w >>> shift) &&& threadsMax

def sleepingThreads (w : ℕ) : ℕ := selectThread w 0

def inactiveThreads (w : ℕ) : ℕ := selectThread w threadsBits

def jobsCounter (w : ℕ) : ℕ := w >>> (2 * threadsBits)

/-- `JobsEventCounter::DUMMY`, which no counter value equals -/
def dummyCounter : ℕ := maxVal

def isSleepy (jec : ℕ) : Bool := jec % 2 == 0

def awakeButIdleThreads (w : ℕ) : ℕ := wrappingSub (inactiveThreads w) (sleepingThreads w)

/-! ## Fields -/

def jecRange : ℕ := 2 ^ 46

def pack (jec inactive sleeping : ℕ) : ℕ := jec * 2 ^ 18 + inactive * 2 ^ 9 + sleeping

theorem selectThread_zero (w : ℕ) : selectThread w 0 = w % 2 ^ 9 := by
  rw [selectThread, Nat.shiftRight_zero]
  exact and_mask (k := 9) (by decide) w

theorem selectThread_nine (w : ℕ) : selectThread w threadsBits = w / 2 ^ 9 % 2 ^ 9 := by
  rw [selectThread, Nat.shiftRight_eq_div_pow]
  exact and_mask (k := 9) (by decide) _

section Fields

variable {jec a b : ℕ}

theorem sleepingThreads_pack (hb : b ≤ threadsMax) : sleepingThreads (pack jec a b) = b := by
  rw [sleepingThreads, selectThread_zero, pack]
  simp only [threadsMax, threadsBits] at hb
  omega

theorem inactiveThreads_pack (ha : a ≤ threadsMax) (hb : b ≤ threadsMax) : inactiveThreads (pack jec a b) = a := by
  rw [inactiveThreads, selectThread_nine, pack]
  simp only [threadsMax, threadsBits] at ha hb
  omega

theorem jobsCounter_pack (ha : a ≤ threadsMax) (hb : b ≤ threadsMax) : jobsCounter (pack jec a b) = jec := by
  rw [jobsCounter, Nat.shiftRight_eq_div_pow, pack]
  simp only [threadsMax, threadsBits] at ha hb ⊢
  omega

theorem pack_add_sleeping (hj : jec < jecRange) (ha : a ≤ threadsMax) (hb : b < threadsMax) :
    wrappingAdd (pack jec a b) oneSleeping = pack jec a (b + 1) := by
  simp only [wrappingAdd, word, pack, oneSleeping, jecRange, threadsMax, threadsBits] at *
  omega

theorem pack_sub_sleeping (hj : jec < jecRange) (ha : a ≤ threadsMax) (hb : b < threadsMax) :
    wrappingSub (pack jec a (b + 1)) oneSleeping = pack jec a b := by
  simp only [wrappingSub, word, pack, oneSleeping, jecRange, threadsMax, threadsBits] at *
  omega

theorem pack_add_inactive (hj : jec < jecRange) (ha : a < threadsMax) (hb : b ≤ threadsMax) :
    wrappingAdd (pack jec a b) oneInactive = pack jec (a + 1) b := by
  simp only [wrappingAdd, word, pack, oneInactive, jecRange, threadsMax, threadsBits] at *
  omega

theorem pack_sub_inactive (hj : jec < jecRange) (ha : a < threadsMax) (hb : b ≤ threadsMax) :
    wrappingSub (pack jec (a + 1) b) oneInactive = pack jec a b := by
  simp only [wrappingSub, word, pack, oneInactive, jecRange, threadsMax, threadsBits] at *
  omega

/-- the jobs event counter wraps at the top of the word -/
theorem pack_add_jec (ha : a ≤ threadsMax) (hb : b ≤ threadsMax) :
    wrappingAdd (pack jec a b) oneJec = pack ((jec + 1) % jecRange) a b := by
  simp only [wrappingAdd, word, pack, oneJec, jecRange, threadsMax, threadsBits] at *
  omega

theorem awakeButIdleThreads_pack (ha : a ≤ threadsMax) (hb : b ≤ a) : awakeButIdleThreads (pack jec a b) = a - b := by
  rw [awakeButIdleThreads, inactiveThreads_pack ha (hb.trans ha), sleepingThreads_pack (hb.trans ha)]
  simp only [wrappingSub, word, threadsMax, threadsBits] at *
  omega

end Fields

/-- two triples of fields that differ in one field, by one; the jobs event counter may wrap -/
def Neighbours (jec a b jec' a' b' : ℕ) : Prop :=
  (b' = b + 1 ∧ a' = a ∧ jec' = jec) ∨ (b = b' + 1 ∧ a' = a ∧ jec' = jec) ∨ (b' = b ∧ a' = a + 1 ∧ jec' = jec) ∨
    (b' = b ∧ a = a' + 1 ∧ jec' = jec) ∨ (b' = b ∧ a' = a ∧ jec' = (jec + 1) % jecRange)

/-- the word changed in at most one field, by one, with no carry into or borrow from another field -/
def OneField (w w' : ℕ) : Prop :=
  w' = w ∨ Neighbours (jobsCounter w) (inactiveThreads w) (sleepingThreads w) (jobsCounter w') (inactiveThreads w')
    (sleepingThreads w')

theorem OneField.pack {jec a b jec' a' b' : ℕ} (ha : a ≤ threadsMax) (hb : b ≤ threadsMax) (ha' : a' ≤ threadsMax)
    (hb' : b' ≤ threadsMax) (h : Neighbours jec a b jec' a' b') : OneField (pack jec a b) (pack jec' a' b') := by
  apply Or.inr
  rw [jobsCounter_pack ha hb, inactiveThreads_pack ha hb, sleepingThreads_pack hb, jobsCounter_pack ha' hb',
    inactiveThreads_pack ha' hb', sleepingThreads_pack hb']
  exact h

end YouPipe.Pool
