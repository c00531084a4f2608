/-
Acyclic networks: orders in which every predecessor comes first, what stands below a cycle, and waiting among ranked processes.

A process of a network waits either downstream (for room) or upstream (for input). If a wait downstream leads to a wait
downstream of higher rank and a wait upstream leads to a process of lower rank, then not all of them can be waiting.
-/
import Mathlib.Tactic

namespace YouPipe.Acyclic

/-! ## Orders -/

section Orders

variable {A : Type} {r : A → A → Prop}

/-- each member comes after all its predecessors -/
def Topological (r : A → A → Prop) (order : List A) : Prop :=
  ∀ pre v post, order = pre ++ v :: post → ∀ u, r u v → u ∈ pre

theorem Topological.nil : Topological r ([] : List A) := by
  intro pre v post h
  simp at h

theorem Topological.snoc {order : List A} (h : Topological r order) {v : A} (hv : ∀ u, r u v → u ∈ order) :
    Topological r (order ++ [v]) := by
  intro pre x post heq u hu
  rcases List.eq_nil_or_concat post with rfl | ⟨mid, y, rfl⟩
  · obtain ⟨rfl, hx⟩ := List.append_inj' heq rfl
    cases hx
    exact hv u hu
  · rw [List.concat_eq_append, ← List.cons_append, ← List.append_assoc] at heq
    exact h pre x mid (List.append_inj' heq rfl).1 u hu

/-- the place in the order increases along `r` -/
theorem Topological.idxOf_lt [DecidableEq A] {order : List A} (h : Topological r order) {u v : A} (hr : r u v)
    (hv : v ∈ order) : order.idxOf u < order.idxOf v := by
  obtain ⟨pre, post, rfl, hpre⟩ := List.eq_append_cons_of_mem hv
  have hu : u ∈ pre := h pre v post rfl u hr
  rw [List.idxOf_append_of_mem hu, List.idxOf_append_of_notMem hpre, List.idxOf_cons_self, Nat.add_zero]
  exact List.idxOf_lt_length_of_mem hu

theorem Topological.mem_of_pred {order : List A} (h : Topological r order) {u v : A} (hr : r u v) (hv : v ∈ order) : u ∈ order := by
  obtain ⟨pre, post, rfl⟩ := List.append_of_mem hv
  exact List.mem_append_left _ (h pre v post rfl u hr)

/-- whatever leads into the order is in it -/
theorem Topological.mem_of_reaches {order : List A} (h : Topological r order) {u v : A} (hr : Relation.ReflTransGen r u v)
    (hv : v ∈ order) : u ∈ order := by
  induction hr using Relation.ReflTransGen.head_induction_on with
  | refl => exact hv
  | head hr _ ih => exact h.mem_of_pred hr ih

/-- nothing in the order is on a cycle -/
theorem Topological.not_cyclic [DecidableEq A] {order : List A} (h : Topological r order) {v : A} (hv : v ∈ order) :
    ¬ Relation.TransGen r v v := by
  have hback : ∀ {u w}, Relation.TransGen r u w → w ∈ order → order.idxOf u < order.idxOf w := by
    intro u w huw hw
    induction huw with
    | single hr => exact h.idxOf_lt hr hw
    | tail _ hr ih => exact (ih (h.mem_of_pred hr hw)).trans (h.idxOf_lt hr hw)
  exact fun hcycle => lt_irrefl _ (hback hcycle hv)

end Orders

/-! ## Cycles -/

section Cycles

variable {A : Type} {r : A → A → Prop}

/-- `v` is on a cycle or downstream of one -/
def BelowCycle (r : A → A → Prop) (v : A) : Prop := ∃ w, Relation.TransGen r w w ∧ Relation.ReflTransGen r w v

/-- in a finite set whose members all have a predecessor in it, everybody is below a cycle: going back repeats a member -/
theorem belowCycle_of_pred {S : Set A} (hfin : S.Finite) (hpred : ∀ v ∈ S, ∃ u ∈ S, r u v) : ∀ v ∈ S, BelowCycle r v := by
  intro v hv
  choose! back hmem hback using hpred
  have hin : ∀ k, back^[k] v ∈ S := by
    intro k
    induction k with
    | zero => exact hv
    | succ k ih =>
      rw [Function.iterate_succ_apply']
      exact hmem _ ih
  have hpath : ∀ k d, Relation.ReflTransGen r (back^[k + d] v) (back^[k] v) := by
    intro k d
    induction d with
    | zero => exact Relation.ReflTransGen.refl
    | succ d ih =>
      rw [← Nat.add_assoc, Function.iterate_succ_apply']
      exact Relation.ReflTransGen.head (hback _ (hin _)) ih
  have hcycle : ∀ i j, i < j → back^[i] v = back^[j] v → BelowCycle r v := by
    intro i j hlt heq
    obtain ⟨d, rfl⟩ := Nat.exists_eq_add_of_lt hlt
    refine ⟨back^[i] v, ?_, by simpa using hpath 0 i⟩
    have hstep : r (back^[i + d + 1] v) (back^[i + d] v) := by
      rw [Function.iterate_succ_apply']
      exact hback _ (hin _)
    rw [← heq] at hstep
    exact Relation.TransGen.head' hstep (hpath i d)
  have := hfin.to_subtype
  obtain ⟨i, j, hne, heq⟩ := Finite.exists_ne_map_eq_of_infinite fun k => (⟨back^[k] v, hin k⟩ : S)
  rcases Nat.lt_or_gt_of_ne hne with hlt | hlt
  · exact hcycle i j hlt (congrArg Subtype.val heq)
  · exact hcycle j i hlt (congrArg Subtype.val heq).symm

end Cycles

/-! ## Waiting -/

section Waiting

variable {W : Type} {rank : W → ℕ} {live down up : W → Prop}

/-- nobody waits downstream: each such wait leads to one of higher rank, and ranks are bounded -/
theorem no_wait_down {bound : ℕ} (hbound : ∀ w, live w → rank w ≤ bound)
    (hdown : ∀ w, live w → down w → ∃ w', live w' ∧ down w' ∧ rank w < rank w') : ∀ w, live w → ¬ down w := by
  intro w hw hd
  induction hk : bound - rank w using Nat.strong_induction_on generalizing w with
  | _ k ih =>
    obtain ⟨w', hw', hd', hlt⟩ := hdown w hw hd
    have hb := hbound w' hw'
    exact ih (bound - rank w') (by omega) w' hw' hd' rfl

/-- **no deadlock by rank**: if every live process waits, there is no live process -/
theorem none_of_all_wait {bound : ℕ} (hbound : ∀ w, live w → rank w ≤ bound) (hall : ∀ w, live w → down w ∨ up w)
    (hdown : ∀ w, live w → down w → ∃ w', live w' ∧ down w' ∧ rank w < rank w')
    (hup : ∀ w, live w → up w → ∃ w', live w' ∧ rank w' < rank w) : ∀ w, ¬ live w := by
  intro w hw
  induction hk : rank w using Nat.strong_induction_on generalizing w with
  | _ k ih =>
    have hu : up w := (hall w hw).resolve_left (no_wait_down hbound hdown w hw)
    obtain ⟨w', hw', hlt⟩ := hup w hw hu
    exact ih (rank w') (hk ▸ hlt) w' hw' rfl

end Waiting

end YouPipe.Acyclic
