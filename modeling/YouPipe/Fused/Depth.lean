/-
The split budget of a fused terminal (`split_depth`, `workload_oversplit` and `SplitPlan::new` in `builder/typed/fused.rs`).

The requested task count is `num_threads` times the oversplit factor of the workload. As long as that product does not pass
2^63, where `next_power_of_two` still has a result, the depth is the smaller of the two rounded-up logarithms, of the task
count and of the length, and at least 1 (`splitDepth_eq`). The length bounds the depth whatever the product.

`Balanced` chooses its factor from the items per thread, so more threads can move a batch from factor 4 to factor 1 and make
its tree shallower, by two levels at most (`balanced_shallower`). At an unchanged factor the depth follows the thread count.
-/
import Mathlib.Tactic
import YouPipe.Core.Word
import YouPipe.Fused.Plan

namespace YouPipe.Fused

open YouPipe.Word

/-! ## Model -/

/-- `split_depth` with the product and the rounding checked; `none` when one of them leaves the word -/
def checkedSplitDepth (n numThreads oversplit : ℕ) : Option ℕ := do
  let tasks ← checkedMul numThreads oversplit
  let byThreads ← checkedNextPowerOfTwo (max tasks 1)
  let byLen ← checkedNextPowerOfTwo (max n 1)
  some (max (min (trailingZeros byThreads) (trailingZeros byLen)) 1)

/-! ## Logarithms -/

theorem trailingZeros_pow {k : ℕ} (h : k ≤ 63) : trailingZeros (2 ^ k) = k := by
  have hfind : (List.range 64).find? (fun i => (2 ^ k).testBit i) = some k := by
    rw [List.find?_range_eq_some]
    refine ⟨by simp, List.mem_range.2 (by omega), ?_⟩
    intro j hj
    simp [show k ≠ j by omega]
  unfold trailingZeros
  rw [hfind]
  rfl

/-- `max 1` does not change a rounded-up logarithm -/
theorem clog_max_one (m : ℕ) : Nat.clog 2 (max m 1) = Nat.clog 2 m := by
  rcases Nat.eq_zero_or_pos m with rfl | hm
  · rfl
  · rw [max_eq_left hm]

theorem clog_le {m : ℕ} (h : m ≤ 2 ^ 63) : Nat.clog 2 m ≤ 63 := Nat.clog_le_of_le_pow h

theorem trailingZeros_nextPowerOfTwo {m : ℕ} (h : m ≤ 2 ^ 63) : trailingZeros (nextPowerOfTwo (max m 1)) = Nat.clog 2 m := by
  have hmax : max m 1 ≤ 2 ^ 63 := max_le h (by norm_num)
  rw [nextPowerOfTwo_eq_clog hmax, trailingZeros_pow (clog_le hmax), clog_max_one]

variable {n numThreads oversplit : ℕ}

/-- the depth of a task count that fits -/
theorem splitDepth_eq (hn : n ≤ 2 ^ 63) (hp : numThreads * oversplit ≤ 2 ^ 63) :
    splitDepth n numThreads oversplit = max (min (Nat.clog 2 (numThreads * oversplit)) (Nat.clog 2 n)) 1 := by
  have hword : numThreads * oversplit < word := lt_of_le_of_lt hp (by decide)
  simp only [splitDepth, Nat.mod_eq_of_lt hword, trailingZeros_nextPowerOfTwo hp, trailingZeros_nextPowerOfTwo hn]

/-- **The checked computation succeeds exactly when the task count fits**, and it is then the depth -/
theorem checkedSplitDepth_iff (hn : n ≤ 2 ^ 63) :
    checkedSplitDepth n numThreads oversplit = some (splitDepth n numThreads oversplit) ↔ numThreads * oversplit ≤ 2 ^ 63 := by
  have hlen : checkedNextPowerOfTwo (max n 1) = some (nextPowerOfTwo (max n 1)) := if_pos (max_le hn (by norm_num))
  unfold checkedSplitDepth checkedMul
  split_ifs with hword
  · simp only [Option.bind_eq_bind, Option.bind_some, hlen]
    unfold checkedNextPowerOfTwo
    split_ifs with hpow
    · have hp : numThreads * oversplit ≤ 2 ^ 63 := (le_max_left _ _).trans hpow
      simp only [Option.bind_some, hp, splitDepth, Nat.mod_eq_of_lt hword]
    · have hp : ¬ numThreads * oversplit ≤ 2 ^ 63 := fun hp => hpow (max_le hp (by norm_num))
      simpa using hp
  · have hp : ¬ numThreads * oversplit ≤ 2 ^ 63 := fun hp => hword (lt_of_le_of_lt hp (by decide))
    simpa using hp

/-- the length bounds the depth, whatever the task count wraps to -/
theorem splitDepth_le (hn : n ≤ 2 ^ 63) : splitDepth n numThreads oversplit ≤ max 1 (Nat.clog 2 n) := by
  simp only [splitDepth, trailingZeros_nextPowerOfTwo hn]
  rw [max_comm]
  exact max_le_max le_rfl (min_le_right _ _)

/-- the tree is deep enough for the requested tasks, or for the length -/
theorem min_le_two_pow_splitDepth (hn : n ≤ 2 ^ 63) (hp : numThreads * oversplit ≤ 2 ^ 63) :
    min (numThreads * oversplit) n ≤ 2 ^ splitDepth n numThreads oversplit := by
  rw [splitDepth_eq hn hp]
  have hdeep : min (Nat.clog 2 (numThreads * oversplit)) (Nat.clog 2 n) ≤
      max (min (Nat.clog 2 (numThreads * oversplit)) (Nat.clog 2 n)) 1 := le_max_left _ _
  refine le_trans ?_ (Nat.pow_le_pow_right (by norm_num) hdeep)
  rcases min_choice (Nat.clog 2 (numThreads * oversplit)) (Nat.clog 2 n) with h | h
  · rw [h]
    exact (min_le_left _ _).trans (Nat.le_pow_clog Nat.one_lt_two _)
  · rw [h]
    exact (min_le_right _ _).trans (Nat.le_pow_clog Nat.one_lt_two _)

/-- among task counts that fit, more tasks never give a shallower tree -/
theorem splitDepth_mono {t o : ℕ} (hn : n ≤ 2 ^ 63) (hp : numThreads * oversplit ≤ 2 ^ 63)
    (hle : t * o ≤ numThreads * oversplit) : splitDepth n t o ≤ splitDepth n numThreads oversplit := by
  rw [splitDepth_eq hn hp, splitDepth_eq hn (hle.trans hp)]
  exact max_le_max (min_le_min (Nat.clog_mono_right 2 hle) le_rfl) le_rfl

/-! ## Balanced -/

theorem balanced_factor (knobs : Knobs) (n numThreads : ℕ) : 1 ≤ workloadOversplit knobs n numThreads .balanced ∧
    workloadOversplit knobs n numThreads .balanced ≤ 4 := by
  simp only [workloadOversplit, BALANCED_OVERSPLIT]
  split_ifs
  · decide
  · decide

/-- four times the tasks are two levels more -/
theorem clog_four_mul (m : ℕ) : Nat.clog 2 (4 * m) ≤ Nat.clog 2 m + 2 := by
  apply Nat.clog_le_of_le_pow
  calc 4 * m ≤ 4 * 2 ^ Nat.clog 2 m := Nat.mul_le_mul_left 4 (Nat.le_pow_clog Nat.one_lt_two m)
    _ = 2 ^ (Nat.clog 2 m + 2) := by rw [pow_add]; ring

/-- a balanced batch on more threads loses two levels at most -/
theorem balanced_shallower (knobs : Knobs) {t : ℕ} (hn : n ≤ 2 ^ 63) (hmax : numThreads ≤ 2 ^ 59) (hle : t ≤ numThreads) :
    (SplitPlan.new knobs n t .balanced).depth ≤ (SplitPlan.new knobs n numThreads .balanced).depth + 2 := by
  have hlo := balanced_factor knobs n t
  have hhi := balanced_factor knobs n numThreads
  simp only [SplitPlan.new]
  generalize workloadOversplit knobs n t .balanced = o at hlo ⊢
  generalize workloadOversplit knobs n numThreads .balanced = o' at hhi ⊢
  have hto : t * o ≤ 4 * (numThreads * o') := by
    calc t * o ≤ numThreads * 4 := Nat.mul_le_mul hle hlo.2
      _ = 4 * (numThreads * 1) := by ring
      _ ≤ 4 * (numThreads * o') := Nat.mul_le_mul_left 4 (Nat.mul_le_mul_left _ hhi.1)
  have hfit : numThreads * o' ≤ 2 ^ 61 := by
    calc numThreads * o' ≤ 2 ^ 59 * 4 := Nat.mul_le_mul hmax hhi.2
      _ = 2 ^ 61 := by norm_num
  have hclog : Nat.clog 2 (t * o) ≤ Nat.clog 2 (numThreads * o') + 2 := (Nat.clog_mono_right 2 hto).trans (clog_four_mul _)
  have hfit' : t * o ≤ 2 ^ 63 := hto.trans (by omega)
  rw [splitDepth_eq hn hfit', splitDepth_eq hn (hfit.trans (by norm_num))]
  have hmin : min (Nat.clog 2 (t * o)) (Nat.clog 2 n) ≤ min (Nat.clog 2 (numThreads * o')) (Nat.clog 2 n) + 2 := by omega
  omega

/-! ## Theorem -/

/-- **The planned depth**: between 1 and the rounded-up logarithm of the length, for every workload. When the requested task
count is at most 2^63, which it is for `Balanced` and for `Unbalanced` at its default factor, the depth is computed without
wrap-around, the tree is as deep as the requested tasks or the length ask for, and it gets no shallower when a custom factor
grows or when the thread count grows at the same factor; `Balanced` may lose two levels where its factor drops -/
theorem depth_planned (knobs : Knobs) (n numThreads : ℕ) (workload : Workload) (hn : n < 2 ^ 63)
    (ht : numThreads ≤ 511) :
    let factor := workloadOversplit knobs n numThreads workload
    let d := (SplitPlan.new knobs n numThreads workload).depth
    (1 ≤ d ∧ d ≤ max 1 (Nat.clog 2 n)) ∧
      (workload = .balanced ∨ (workload = .unbalanced ∧ knobs.oversplit = none) → numThreads * factor ≤ 2 ^ 63) ∧
      (numThreads * factor ≤ 2 ^ 63 →
        checkedSplitDepth n numThreads factor = some d ∧ min (numThreads * factor) n ≤ 2 ^ d ∧
        (∀ f f', workload = .custom f → f' ≤ f → (SplitPlan.new knobs n numThreads (.custom f')).depth ≤ d) ∧
        (∀ t, t ≤ numThreads → workloadOversplit knobs n t workload = factor →
          (SplitPlan.new knobs n t workload).depth ≤ d) ∧
        (∀ t, t ≤ numThreads → workload = .balanced → (SplitPlan.new knobs n t workload).depth ≤ d + 2)) := by
  intro factor d
  have hlen : n ≤ 2 ^ 63 := hn.le
  refine ⟨⟨splitDepth_pos _ _ _, splitDepth_le hlen⟩, ?_, ?_⟩
  · rintro (rfl | ⟨rfl, hk⟩)
    · calc numThreads * factor ≤ 511 * 4 := Nat.mul_le_mul ht (balanced_factor knobs n numThreads).2
        _ ≤ 2 ^ 63 := by norm_num
    · have hfactor : factor = 64 := by simp [factor, workloadOversplit, unbalancedOversplit, hk]
      rw [hfactor]
      omega
  · intro hp
    refine ⟨(checkedSplitDepth_iff hlen).2 hp, min_le_two_pow_splitDepth hlen hp, ?_, ?_, ?_⟩
    · rintro f f' rfl hle
      exact splitDepth_mono hlen hp (Nat.mul_le_mul_left _ hle)
    · intro t hle hsame
      show splitDepth n t (workloadOversplit knobs n t workload) ≤ d
      rw [hsame]
      exact splitDepth_mono hlen hp (Nat.mul_le_mul_right _ hle)
    · rintro t hle rfl
      exact balanced_shallower knobs hlen (by omega) hle

/-- sixteen tasks for sixteen items: four levels, and no fewer than for the smaller factor 3 -/
theorem depth_planned_custom :
    (SplitPlan.new ⟨none, none, .off⟩ 16 4 (.custom 4)).depth = 4 ∧
      (SplitPlan.new ⟨none, none, .off⟩ 16 4 (.custom 3)).depth ≤ (SplitPlan.new ⟨none, none, .off⟩ 16 4 (.custom 4)).depth := by
  refine ⟨by decide, ?_⟩
  obtain ⟨-, -, hfit⟩ := depth_planned ⟨none, none, .off⟩ 16 4 (.custom 4) (by decide) (by decide)
  exact (hfit (by decide)).2.2.1 4 3 rfl (by decide)

/-- **More threads, a shallower tree**: 4100 balanced items are planned four levels deep on four threads and three on five -/
theorem balanced_drops :
    (SplitPlan.new ⟨none, none, .off⟩ 4100 4 .balanced).depth = 4 ∧
      (SplitPlan.new ⟨none, none, .off⟩ 4100 5 .balanced).depth = 3 := by
  decide

-- a product that leaves the word: 2 · 2^63 tasks wrap to none, and the depth of 1024 items is 1
example : (SplitPlan.new ⟨none, none, .off⟩ 1024 2 (.custom (2 ^ 63))).depth = 1 := by decide

end YouPipe.Fused
