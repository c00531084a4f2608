/-
Round-robin walks over `n` places with close marks: how many places are unmarked, which places a walk from a cursor visits, and
how far ahead of the cursor a place is.
-/
import Mathlib.Tactic

namespace YouPipe.RoundRobin

variable {n : ℕ} {closed : ℕ → Bool}

/-- the places not yet marked closed -/
def unmarked (n : ℕ) (closed : ℕ → Bool) : Finset ℕ := (Finset.range n).filter fun i => closed i = false

theorem mem_unmarked {i : ℕ} : i ∈ unmarked n closed ↔ i < n ∧ closed i = false := by
  simp [unmarked]

theorem card_unmarked_mark {i : ℕ} (hi : i < n) (hc : closed i = false) :
    (unmarked n (Function.update closed i true)).card = (unmarked n closed).card - 1 := by
  have herase : unmarked n (Function.update closed i true) = (unmarked n closed).erase i := by
    ext j
    by_cases hij : j = i
    · subst hij; simp [unmarked]
    · simp [unmarked, hij]
  rw [herase, Finset.card_erase_of_mem (mem_unmarked.2 ⟨hi, hc⟩)]

theorem card_unmarked_eq_zero : (unmarked n closed).card = 0 ↔ ∀ i < n, closed i = true := by
  rw [Finset.card_eq_zero]
  constructor
  · intro hempty i hi
    by_contra hc
    have hmem : i ∈ unmarked n closed := mem_unmarked.2 ⟨hi, Bool.eq_false_iff.2 hc⟩
    simp [hempty] at hmem
  · intro hall
    apply Finset.filter_false_of_mem
    intro i hi
    simp [hall i (Finset.mem_range.1 hi)]

/-- walking all `n` places from any cursor visits every place -/
theorem all_closed_of_walk {cursor : ℕ} (hc : cursor < n) (h : ∀ j < n, closed ((cursor + j) % n) = true) :
    ∀ i < n, closed i = true := by
  intro i hi
  rcases Nat.lt_or_ge i cursor with hlt | hge
  · have hj := h (i + n - cursor) (by omega)
    rwa [show cursor + (i + n - cursor) = i + n by omega, Nat.add_mod_right, Nat.mod_eq_of_lt hi] at hj
  · have hj := h (i - cursor) (by omega)
    rwa [show cursor + (i - cursor) = i by omega, Nat.mod_eq_of_lt hi] at hj

/-- how many places after the cursor `i` is -/
def ahead (n cursor i : ℕ) : ℕ := if cursor ≤ i then i - cursor else i + n - cursor

theorem wrap {cursor k : ℕ} (hc : cursor < n) (hk : k < n) :
    (cursor + k) % n = if cursor + k < n then cursor + k else cursor + k - n := by
  split_ifs with h
  · exact Nat.mod_eq_of_lt h
  · rw [Nat.mod_eq_sub_mod (Nat.le_of_not_lt h), Nat.mod_eq_of_lt (by omega)]

theorem ahead_lt {cursor i : ℕ} (hc : cursor < n) (hi : i < n) : ahead n cursor i < n := by
  unfold ahead
  split_ifs <;> omega

theorem place_ahead {cursor i : ℕ} (hc : cursor < n) (hi : i < n) : (cursor + ahead n cursor i) % n = i := by
  rw [wrap hc (ahead_lt hc hi)]
  unfold ahead
  split_ifs <;> omega

/-- past a place before `i`, `i` is that much closer -/
theorem ahead_rotate {cursor i k : ℕ} (hc : cursor < n) (hi : i < n) (hk : k < ahead n cursor i) :
    ahead n (((cursor + k) % n + 1) % n) i + (k + 1) = ahead n cursor i := by
  have hlt := ahead_lt hc hi
  have hcur : ((cursor + k) % n + 1) % n = if cursor + (k + 1) < n then cursor + (k + 1) else cursor + (k + 1) - n := by
    rw [Nat.mod_add_mod, Nat.add_assoc, wrap hc (by omega)]
  rw [hcur]
  unfold ahead at *
  split_ifs at * <;> omega

end YouPipe.RoundRobin
