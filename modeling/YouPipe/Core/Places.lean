/-
Items that are in at most one of several lists. `Placed holds place` says that the lists `holds q` have no item twice and that
`place` finds the list an item is in. `take`, `put` and `move` follow one item from list to list, the others stay where they are.
-/
import Mathlib.Tactic

namespace YouPipe.Places

variable {ι Q : Type} {holds holds' : Q → List ι} {place : ι → Option Q} {j : ι} {q q' : Q}

structure Placed (holds : Q → List ι) (place : ι → Option Q) : Prop where
  nodup : ∀ q, (holds q).Nodup
  mem : ∀ q j, j ∈ holds q ↔ place j = some q

theorem Placed.same (h : Placed holds place) (hsame : ∀ q, holds' q = holds q) : Placed holds' place := by
  have heq : holds' = holds := funext hsame
  rwa [heq]

variable [DecidableEq ι]

theorem Placed.take (h : Placed holds place) (hfrom : (holds q).Perm (j :: holds' q)) (hrest : ∀ r, r ≠ q → holds' r = holds r) :
    Placed holds' (Function.update place j none) := by
  have hnodup := hfrom.nodup_iff.1 (h.nodup q)
  have hj : place j = some q := (h.mem q j).1 (hfrom.mem_iff.2 List.mem_cons_self)
  refine ⟨fun r => ?_, fun r i => ?_⟩
  · by_cases hr : r = q
    · subst hr
      exact hnodup.of_cons
    · rw [hrest r hr]
      exact h.nodup r
  · by_cases hi : i = j
    · subst hi
      rw [Function.update_self]
      refine iff_of_false (fun hmem => ?_) (fun heq => by cases heq)
      by_cases hr : r = q
      · subst hr
        exact (List.nodup_cons.1 hnodup).1 hmem
      · rw [hrest r hr, h.mem, hj] at hmem
        exact hr (Option.some.inj hmem).symm
    · rw [Function.update_of_ne hi, ← h.mem]
      by_cases hr : r = q
      · subst hr
        rw [hfrom.mem_iff, List.mem_cons, or_iff_right hi]
      · rw [hrest r hr]

theorem Placed.put (h : Placed holds place) (hj : place j = none) (hto : (holds' q).Perm (j :: holds q))
    (hrest : ∀ r, r ≠ q → holds' r = holds r) : Placed holds' (Function.update place j (some q)) := by
  have hout : ∀ r, j ∉ holds r := fun r hmem => by
    rw [h.mem, hj] at hmem
    cases hmem
  refine ⟨fun r => ?_, fun r i => ?_⟩
  · by_cases hr : r = q
    · subst hr
      exact hto.nodup_iff.2 (List.nodup_cons.2 ⟨hout r, h.nodup r⟩)
    · rw [hrest r hr]
      exact h.nodup r
  · by_cases hi : i = j
    · subst hi
      rw [Function.update_self]
      by_cases hr : r = q
      · subst hr
        exact iff_of_true (hto.mem_iff.2 List.mem_cons_self) rfl
      · rw [hrest r hr]
        exact iff_of_false (hout r) fun heq => hr (Option.some.inj heq).symm
    · rw [Function.update_of_ne hi, ← h.mem]
      by_cases hr : r = q
      · subst hr
        rw [hto.mem_iff, List.mem_cons, or_iff_right hi]
      · rw [hrest r hr]

variable [DecidableEq Q]

theorem Placed.move (h : Placed holds place) (hne : q ≠ q') (hfrom : (holds q).Perm (j :: holds' q))
    (hto : (holds' q').Perm (j :: holds q')) (hrest : ∀ r, r ≠ q → r ≠ q' → holds' r = holds r) :
    Placed holds' (Function.update place j (some q')) := by
  have htake : Placed (Function.update holds q (holds' q)) (Function.update place j none) :=
    h.take (by rw [Function.update_self]; exact hfrom) fun r hr => Function.update_of_ne hr _ _
  have hput : Placed holds' (Function.update (Function.update place j none) j (some q')) := by
    refine htake.put (Function.update_self j none place) ?_ fun r hr => ?_
    · rw [Function.update_of_ne hne.symm]
      exact hto
    · by_cases hq : r = q
      · subst hq
        exact (Function.update_self r (holds' r) holds).symm
      · rw [Function.update_of_ne hq]
        exact hrest r hq hr
  rwa [Function.update_idem] at hput

end YouPipe.Places
