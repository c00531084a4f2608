/-
Most recently used first. A history lists the uses of keys, the last one first; `eraseDups` leaves each key at its latest use.
A list of at most `c` keys that is the first `c` of them stays so when the next use moves its key to the front, and when it
puts a new key in front of the list and cuts the list to `c`.
-/
import Mathlib.Tactic

namespace YouPipe.Recency

variable {K : Type} [DecidableEq K]

theorem eraseDups_filter (p : K → Bool) (l : List K) : (l.filter p).eraseDups = l.eraseDups.filter p := by
  induction hn : l.length using Nat.strong_induction_on generalizing l with
  | _ n ih =>
    cases l with
    | nil => rfl
    | cons k l =>
      subst hn
      have hlen : ∀ q : K → Bool, (l.filter q).length < (k :: l).length := fun q =>
        Nat.lt_succ_of_le (List.length_filter_le q l)
      rw [List.eraseDups_cons, List.filter_cons, List.filter_cons]
      split_ifs with hk
      · rw [List.eraseDups_cons, List.filter_filter, ← ih _ (hlen _) _ rfl, List.filter_filter]
        simp only [Bool.and_comm]
      · -- the uses of `k` are gone on both sides
        rw [← ih _ (hlen _) _ rfl, List.filter_filter]
        congr 1
        apply List.filter_congr
        intro x _
        by_cases hx : x = k
        · subst hx; simp_all
        · simp [hx]

/-- the next use of `k` moves it to the front -/
theorem eraseDups_use (k : K) (l : List K) : (k :: l).eraseDups = k :: l.eraseDups.filter (· != k) := by
  rw [List.eraseDups_cons, eraseDups_filter]
  rfl

theorem nodup_eraseDups (l : List K) : l.eraseDups.Nodup := by
  induction l with
  | nil => exact List.nodup_nil
  | cons k l ih =>
    rw [eraseDups_use, List.nodup_cons]
    exact ⟨by simp, ih.filter _⟩

/-- taking out a key among the first `c + 1` leaves the others of these -/
theorem take_filter_of_mem {l : List K} (hnd : l.Nodup) {k : K} {c : ℕ} (hk : k ∈ l.take (c + 1)) :
    (l.filter (· != k)).take c = (l.take (c + 1)).filter (· != k) := by
  induction l generalizing c with
  | nil => simp
  | cons x l ih =>
    rw [List.nodup_cons] at hnd
    rw [List.take_succ_cons] at hk ⊢
    by_cases hx : x = k
    · subst hx
      have hl : l.filter (· != x) = l := by
        rw [List.filter_eq_self]
        intro y hy
        have hne : y ≠ x := by rintro rfl; exact hnd.1 hy
        simp [hne]
      have ht : (l.take c).filter (· != x) = l.take c := by
        rw [List.filter_eq_self]
        intro y hy
        have hne : y ≠ x := by rintro rfl; exact hnd.1 (List.mem_of_mem_take hy)
        simp [hne]
      simp [hl, ht]
    · have hk' : k ∈ l.take c := by
        rcases List.mem_cons.1 hk with rfl | h
        · exact absurd rfl hx
        · exact h
      cases c with
      | zero => simp at hk'
      | succ c =>
        have h := ih hnd.2 hk'
        simp [hx, h]

theorem take_filter_of_notMem {l : List K} {k : K} {c : ℕ} (hk : k ∉ l.take c) :
    (l.filter (· != k)).take c = l.take c := by
  induction l generalizing c with
  | nil => simp
  | cons x l ih =>
    cases c with
    | zero => simp
    | succ c =>
      rw [List.take_succ_cons, List.mem_cons, not_or] at hk
      have hx : x ≠ k := fun h => hk.1 h.symm
      have h := ih hk.2
      simp [hx, h]

/-- **A hit.** Moving a held key to the front keeps the list the first `c` keys by latest use. -/
theorem take_use_of_mem {h held : List K} {k : K} {c : ℕ} (hheld : held = h.eraseDups.take c) (hk : k ∈ held) :
    k :: held.filter (· != k) = (k :: h).eraseDups.take c := by
  subst hheld
  cases c with
  | zero => simp at hk
  | succ c => rw [eraseDups_use, List.take_succ_cons, take_filter_of_mem (nodup_eraseDups h) hk]

/-- **A miss.** A new key comes to the front and the list is cut to `c`. -/
theorem take_use_of_notMem {h held : List K} {k : K} {c : ℕ} (hheld : held = h.eraseDups.take c) (hk : k ∉ held) :
    (k :: held).take c = (k :: h).eraseDups.take c := by
  subst hheld
  cases c with
  | zero => rfl
  | succ c =>
    have hk' : k ∉ h.eraseDups.take c := fun hm => hk (List.take_subset_take_left _ (Nat.le_succ c) hm)
    rw [eraseDups_use, List.take_succ_cons, List.take_succ_cons, take_filter_of_notMem hk', List.take_take]
    congr 2
    omega

end YouPipe.Recency
