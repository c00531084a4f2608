/-
Consecutive ranges. `Tiles a l b`: the half-open ranges of `l` lead from `a` to `b`, each starting where the one before it
stops; a range may be empty.

What a tiling gives:
  Tiles.pairwise   a later range starts at or after the stop of an earlier one, so any two are disjoint
  Tiles.exists_mem every point between `a` and `b` lies in one of the ranges
  tiles_range      the ranges between the values of a monotone function tile
-/
import Mathlib.Tactic

namespace YouPipe.Tiling

/-- the ranges `[a, b₁), [b₁, b₂), …` up to the last stop -/
inductive Tiles : ℕ → List (ℕ × ℕ) → ℕ → Prop where
  | nil (a : ℕ) : Tiles a [] a
  | cons {a b c : ℕ} {l : List (ℕ × ℕ)} (hab : a ≤ b) (ht : Tiles b l c) : Tiles a ((a, b) :: l) c

namespace Tiles

variable {a b c : ℕ} {l r : List (ℕ × ℕ)}

theorem append (h : Tiles a l b) (h' : Tiles b r c) : Tiles a (l ++ r) c := by
  induction h with
  | nil => exact h'
  | cons hab _ ih => exact .cons hab (ih h')

theorem split (h : Tiles a (l ++ r) b) : ∃ m, Tiles a l m ∧ Tiles m r b := by
  induction l generalizing a with
  | nil => exact ⟨a, .nil a, h⟩
  | cons p l ih =>
    rw [List.cons_append] at h
    cases h with
    | cons hab ht =>
      obtain ⟨m, hl, hr⟩ := ih ht
      exact ⟨m, .cons hab hl, hr⟩

theorem bounds (h : Tiles a l b) : a ≤ b ∧ ∀ p ∈ l, a ≤ p.1 ∧ p.1 ≤ p.2 ∧ p.2 ≤ b := by
  induction h with
  | nil => exact ⟨le_rfl, by simp⟩
  | @cons a b c l hab _ ih =>
    refine ⟨hab.trans ih.1, ?_⟩
    intro p hp
    rcases List.mem_cons.1 hp with rfl | hp
    · exact ⟨le_rfl, hab, ih.1⟩
    · obtain ⟨h1, h2, h3⟩ := ih.2 p hp
      exact ⟨hab.trans h1, h2, h3⟩

theorem pairwise (h : Tiles a l b) : l.Pairwise fun p q => p.2 ≤ q.1 := by
  induction h with
  | nil => exact .nil
  | cons _ ht ih => exact .cons (fun q hq => (ht.bounds.2 q hq).1) ih

theorem exists_mem (h : Tiles a l b) {x : ℕ} (ha : a ≤ x) (hb : x < b) : ∃ p ∈ l, p.1 ≤ x ∧ x < p.2 := by
  induction h with
  | nil => omega
  | @cons a b c l _ _ ih =>
    by_cases hx : x < b
    · exact ⟨(a, b), by simp, ha, hx⟩
    · obtain ⟨p, hp, hpx⟩ := ih (by omega) hb
      exact ⟨p, List.mem_cons_of_mem _ hp, hpx⟩

end Tiles

/-- the ranges between consecutive values of a monotone function -/
theorem tiles_range {f : ℕ → ℕ} (hf : Monotone f) (k : ℕ) :
    Tiles (f 0) ((List.range k).map fun i => (f i, f (i + 1))) (f k) := by
  induction k with
  | zero => exact .nil _
  | succ k ih =>
    rw [List.range_succ, List.map_append]
    exact ih.append (.cons (hf (Nat.le_succ k)) (.nil _))

end YouPipe.Tiling
