/-
Machine words that remember whether they are right. A `Tracked` word is the word a release build computes, together with a
mark: did an operation on the way to it leave the range? The mark is a ghost, it never reaches a value.

`Tracks t x`: the mark is up exactly when the exact number `x` is no word, and without the mark the word is `x`. It passes
through sums and products (`Tracks.add`, `Tracks.mul`, `Tracks.foldl`), because these only grow: a whole sum can be judged by its exact total.
Differences are judged one at a time, by `sub_exact`.
-/
import Mathlib.Tactic
import YouPipe.Core.Word

namespace YouPipe.Word

@[ext]
structure Tracked where
  val : ℕ
  wrapped : Bool
deriving DecidableEq, Repr

namespace Tracked

/-- a number stored into a word -/
def of (k : ℕ) : Tracked := ⟨k % word, decide (word ≤ k)⟩

def add (s t : Tracked) : Tracked :=
  ⟨wrappingAdd s.val t.val, s.wrapped || t.wrapped || decide (word ≤ s.val + t.val)⟩

def sub (s t : Tracked) : Tracked :=
  ⟨wrappingSub s.val t.val, s.wrapped || t.wrapped || decide (s.val < t.val)⟩

def mul (s t : Tracked) : Tracked :=
  ⟨s.val * t.val % word, s.wrapped || t.wrapped || decide (word ≤ s.val * t.val)⟩

instance : Add Tracked := ⟨add⟩

instance : Sub Tracked := ⟨sub⟩

instance : Mul Tracked := ⟨mul⟩

end Tracked

/-! ## Exact values -/

/-- the mark is up exactly when `x` is out of range, and otherwise the word is `x` -/
structure Tracks (t : Tracked) (x : ℕ) : Prop where
  mark : t.wrapped = false ↔ x < word
  val : t.wrapped = false → t.val = x

variable {s t : Tracked} {x y k : ℕ}

theorem tracks_of (k : ℕ) : Tracks (Tracked.of k) k := by
  constructor
  · simp [Tracked.of]
  · intro h
    exact Nat.mod_eq_of_lt (by simpa [Tracked.of] using h)

/-- an unmarked word is the exact number -/
theorem Tracks.eq (h : Tracks t x) (hx : x < word) : t = ⟨x, false⟩ :=
  Tracked.ext (h.val (h.mark.2 hx)) (h.mark.2 hx)

theorem tracks_exact (hx : x < word) : Tracks ⟨x, false⟩ x := ⟨by simp [hx], fun _ => rfl⟩

/-- a sum is right when both sides are and the exact total is a word -/
theorem Tracks.add (hs : Tracks s x) (ht : Tracks t y) : Tracks (s + t) (x + y) := by
  have hmark : (s + t).wrapped = false ↔ (s.wrapped = false ∧ t.wrapped = false) ∧ s.val + t.val < word := by
    change (s.wrapped || t.wrapped || decide (word ≤ s.val + t.val)) = false ↔ _
    simp
  constructor
  · rw [hmark]
    constructor
    · rintro ⟨⟨h1, h2⟩, h3⟩
      rwa [hs.val h1, ht.val h2] at h3
    · intro h
      have h1 := hs.mark.2 (by omega)
      have h2 := ht.mark.2 (by omega)
      exact ⟨⟨h1, h2⟩, by rwa [hs.val h1, ht.val h2]⟩
  · intro h
    obtain ⟨⟨h1, h2⟩, h3⟩ := hmark.1 h
    calc (s + t).val = s.val + t.val := wrappingAdd_of_lt h3
      _ = x + y := by rw [hs.val h1, ht.val h2]

/-- a product likewise, where a zero factor does not hide the other one -/
theorem Tracks.mul (hs : Tracks s x) (ht : Tracks t y) (hx : y = 0 → x < word) (hy : x = 0 → y < word) : Tracks (s * t) (x * y) := by
  have hmark : (s * t).wrapped = false ↔ (s.wrapped = false ∧ t.wrapped = false) ∧ s.val * t.val < word := by
    change (s.wrapped || t.wrapped || decide (word ≤ s.val * t.val)) = false ↔ _
    simp
  constructor
  · rw [hmark]
    constructor
    · rintro ⟨⟨h1, h2⟩, h3⟩
      rwa [hs.val h1, ht.val h2] at h3
    · intro h
      have hxw : x < word := by
        rcases Nat.eq_zero_or_pos y with h0 | hpos
        · exact hx h0
        · exact lt_of_le_of_lt (Nat.le_mul_of_pos_right x hpos) h
      have hyw : y < word := by
        rcases Nat.eq_zero_or_pos x with h0 | hpos
        · exact hy h0
        · exact lt_of_le_of_lt (Nat.le_mul_of_pos_left y hpos) h
      have h1 := hs.mark.2 hxw
      have h2 := ht.mark.2 hyw
      exact ⟨⟨h1, h2⟩, by rwa [hs.val h1, ht.val h2]⟩
  · intro h
    obtain ⟨⟨h1, h2⟩, h3⟩ := hmark.1 h
    calc (s * t).val = s.val * t.val := Nat.mod_eq_of_lt h3
      _ = x * y := by rw [hs.val h1, ht.val h2]

/-- a whole fold of sums, by induction on the list -/
theorem Tracks.foldl {A : Type} (f : A → ℕ) (l : List A) : ∀ {t : Tracked} {x : ℕ}, Tracks t x →
    Tracks (l.foldl (fun sum a => sum + Tracked.of (f a)) t) (x + (l.map f).sum) := by
  induction l with
  | nil => intro t x h; exact h
  | cons a l ih =>
    intro t x h
    rw [List.foldl_cons, List.map_cons, List.sum_cons, ← Nat.add_assoc]
    exact ih (h.add (tracks_of (f a)))

theorem of_exact (h : k < word) : Tracked.of k = ⟨k, false⟩ := (tracks_of k).eq h

/-- a difference of exact words that does not borrow is exact -/
theorem sub_exact (hx : x < word) (h : y ≤ x) : (⟨x, false⟩ - Tracked.of y : Tracked) = ⟨x - y, false⟩ := by
  rw [of_exact (lt_of_le_of_lt h hx)]
  refine Tracked.ext ?_ ?_
  · change (x + word - y) % word = x - y
    rw [show x + word - y = x - y + word by omega, Nat.add_mod_right, Nat.mod_eq_of_lt (by omega)]
  · change (false || false || decide (x < y)) = false
    simpa using h

end YouPipe.Word
