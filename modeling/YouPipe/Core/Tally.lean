/-
Sums over finite families, and the number of their members that have a property: how they move when one member changes.
-/
import Mathlib.Tactic

namespace YouPipe.Tally

variable {A : Type}

/-- how many of the first `n` members of the family satisfy `p` -/
def tally (n : ℕ) (p : A → Bool) (f : ℕ → A) : ℕ := ((Finset.range n).filter fun i => p (f i) = true).card

theorem tally_le (n : ℕ) (p : A → Bool) (f : ℕ → A) : tally n p f ≤ n := by
  have h := Finset.card_filter_le (Finset.range n) fun i => p (f i) = true
  rwa [Finset.card_range] at h

theorem tally_mono {n : ℕ} {p q : A → Bool} {f : ℕ → A} (h : ∀ i, p (f i) = true → q (f i) = true) :
    tally n p f ≤ tally n q f :=
  Finset.card_le_card (Finset.monotone_filter_right _ fun i _ hi => h i hi)

theorem tally_eq_of_forall {n : ℕ} {p : A → Bool} {f : ℕ → A} (h : ∀ i < n, p (f i) = true) : tally n p f = n := by
  rw [tally, Finset.filter_true_of_mem fun i hi => h i (Finset.mem_range.1 hi), Finset.card_range]

section Sums

variable {B M : Type} [DecidableEq B] [AddCommMonoid M]

/-- one summand changes -/
theorem sum_update_add {t : Finset B} {i : B} (hi : i ∈ t) (f : B → M) (x : M) :
    (∑ j ∈ t, Function.update f i x j) + f i = (∑ j ∈ t, f j) + x := by
  rw [Finset.sum_update_of_mem hi, Finset.sdiff_singleton_eq_erase, ← Finset.add_sum_erase t f hi]
  abel

/-- one member changes: the sum moves by its own difference -/
theorem sum_map_update {n i : ℕ} (hi : i < n) (f : A → M) (c : ℕ → A) (x : A) :
    (∑ j ∈ Finset.range n, f (Function.update c i x j)) + f (c i) = (∑ j ∈ Finset.range n, f (c j)) + f x := by
  have hcomp : (fun j => f (Function.update c i x j)) = Function.update (fun j => f (c j)) i (f x) := by
    funext j
    exact Function.apply_update (fun _ a => f a) c i x j
  rw [hcomp]
  exact sum_update_add (Finset.mem_range.2 hi) _ _

theorem list_sum_update_add {l : List B} (hnd : l.Nodup) {i : B} (hi : i ∈ l) (f : B → M) (x : M) :
    (l.map (Function.update f i x)).sum + f i = (l.map f).sum + x := by
  rw [← List.sum_toFinset _ hnd, ← List.sum_toFinset _ hnd]
  exact sum_update_add (List.mem_toFinset.2 hi) f x

theorem list_sum_update_of_notMem {l : List B} {i : B} (hi : i ∉ l) (f : B → M) (x : M) :
    (l.map (Function.update f i x)).sum = (l.map f).sum := by
  congr 1
  apply List.map_congr_left
  intro j hj
  apply Function.update_of_ne
  rintro rfl
  exact hi hj

end Sums

theorem tally_eq_sum (n : ℕ) (p : A → Bool) (f : ℕ → A) : tally n p f = ∑ i ∈ Finset.range n, (p (f i)).toNat := by
  rw [tally, Finset.card_filter]
  apply Finset.sum_congr rfl
  intro i _
  cases p (f i) <;> rfl

/-- one member changes: the count moves by its own difference -/
theorem tally_update {n i : ℕ} (hi : i < n) (p : A → Bool) (f : ℕ → A) (x : A) :
    tally n p (Function.update f i x) + (p (f i)).toNat = tally n p f + (p x).toNat := by
  rw [tally_eq_sum, tally_eq_sum]
  exact sum_map_update hi (fun a => (p a).toNat) f x

end YouPipe.Tally
