/-
Sweeping a vector while members leave it. A sweep visits the members one after the other; a member whose visit fails is taken
out with `swap_remove`, which moves the last member into the hole, and the sweep looks at the same index again. The last member
that is left has a visit of its own.

`visitAll_spec`: every member is visited exactly once, in some order, and the members that stay are those whose visit succeeded.
-/
import Mathlib.Tactic
import YouPipe.Core.RawVec

namespace YouPipe.Sweep

open YouPipe.RawVec

variable {E S : Type}

/-- take out member `i`, the last one filling the hole -/
def swapRemove (l : List E) (i : ℕ) : Except Fault (List E) :=
  match l.getLast? with
  | none => .error .outOfBounds
  | some x => if i < l.length then .ok (l.set i x).dropLast else .error .outOfBounds

/-- visit the members from index `i` on, all but the last one -/
def sweep (visit : E → S → Except Fault (Bool × S)) : ℕ → ℕ → List E → S → Except Fault (List E × S)
  | 0, _, _, _ => .error .looped
  | fuel + 1, i, l, s =>
    if i + 1 < l.length then
      match l[i]? with
      | none => .error .outOfBounds
      | some e => do
        let (ok, s) ← visit e s
        if ok then sweep visit fuel (i + 1) l s
        else do
          let l ← swapRemove l i
          sweep visit fuel i l s
    else .ok (l, s)

/-- the visit of the last member; the flag says whether any member is left -/
def visitLast (last : E → S → Except Fault (Bool × S)) (l : List E) (s : S) : Except Fault (Bool × List E × S) :=
  if l.isEmpty then .ok (false, l, s)
  else
    match l[l.length - 1]? with
    | none => .error .outOfBounds
    | some e => do
      let (ok, s) ← last e s
      if ok then .ok (!l.isEmpty, l, s)
      else do
        let l ← swapRemove l (l.length - 1)
        .ok (!l.isEmpty, l, s)

/-- a whole sweep -/
def visitAll (visit last : E → S → Except Fault (Bool × S)) (l : List E) (s : S) : Except Fault (Bool × List E × S) := do
  let (l, s) ← sweep visit (l.length + 1) 0 l s
  visitLast last l s

/-! ## The vector -/

theorem swapRemove_last (l : List E) (e : E) : swapRemove (l ++ [e]) l.length = .ok l := by
  simp [swapRemove]

theorem swapRemove_inner (front mid : List E) (e x : E) :
    swapRemove (front ++ e :: (mid ++ [x])) front.length = .ok (front ++ x :: mid) := by
  have hlast : (front ++ e :: (mid ++ [x])).getLast? = some x := by
    rw [← List.cons_append, ← List.append_assoc]
    exact List.getLast?_concat
  have hset : (front ++ e :: (mid ++ [x])).set front.length x = (front ++ x :: mid) ++ [x] := by simp
  have hlt : front.length < (front ++ e :: (mid ++ [x])).length := by simp
  simp only [swapRemove, hlast, hlt, if_true, hset, List.dropLast_concat]

/-! ## Visits -/

/-- one visit after the other, each with its outcome -/
inductive Visits (step : E → Bool → S → S → Prop) : List (E × Bool) → S → S → Prop
  | nil (s : S) : Visits step [] s s
  | cons {e : E} {ok : Bool} {vs : List (E × Bool)} {s s1 s' : S} :
    step e ok s s1 → Visits step vs s1 s' → Visits step ((e, ok) :: vs) s s'

/-- the members whose visit succeeded -/
def stayed (vs : List (E × Bool)) : List E := (vs.filter Prod.snd).map Prod.fst

theorem Visits.append {step : E → Bool → S → S → Prop} {vs ws : List (E × Bool)} {s s1 s' : S} (h : Visits step vs s s1)
    (h' : Visits step ws s1 s') : Visits step (vs ++ ws) s s' := by
  induction h with
  | nil => exact h'
  | cons hstep _ ih => exact .cons hstep (ih h')

@[simp] theorem stayed_nil : stayed ([] : List (E × Bool)) = [] := rfl

@[simp] theorem stayed_cons_true (e : E) (vs : List (E × Bool)) : stayed ((e, true) :: vs) = e :: stayed vs := rfl

@[simp] theorem stayed_cons_false (e : E) (vs : List (E × Bool)) : stayed ((e, false) :: vs) = stayed vs := rfl

@[simp] theorem stayed_append (vs ws : List (E × Bool)) : stayed (vs ++ ws) = stayed vs ++ stayed ws := by
  simp [stayed]

theorem mem_stayed {vs : List (E × Bool)} {e : E} : e ∈ stayed vs ↔ (e, true) ∈ vs := by
  simp [stayed]

/-- the visit returns and does what `step` says, wherever `Safe` holds, and keeps it -/
def Performs (Safe : S → Prop) (step : E → Bool → S → S → Prop) (visit : E → S → Except Fault (Bool × S)) : Prop :=
  ∀ e s, Safe s → ∃ ok s', visit e s = .ok (ok, s') ∧ Safe s' ∧ step e ok s s'

section Sweep

variable {Safe : S → Prop} {step : E → Bool → S → S → Prop} {visit last : E → S → Except Fault (Bool × S)}

/-- the members before index `i` were visited and stay; of the others all but one are visited now -/
theorem sweep_spec (hvisit : Performs Safe step visit) (fuel : ℕ) : ∀ (front todo : List E) (s : S), Safe s → todo ≠ [] →
    todo.length < fuel + 1 → ∃ vs kept x s', sweep visit fuel front.length (front ++ todo) s = .ok (front ++ kept ++ [x], s') ∧
      Safe s' ∧ Visits step vs s s' ∧ (vs.map Prod.fst ++ [x]).Perm todo ∧ kept.Perm (stayed vs) := by
  induction fuel with
  | zero =>
    intro front todo s _ hne hf
    have := List.length_pos_of_ne_nil hne
    omega
  | succ fuel ih =>
    intro front todo s hs hne hf
    rcases todo with _ | ⟨e, rest⟩
    · exact absurd rfl hne
    rcases rest.eq_nil_or_concat with rfl | ⟨mid, x, rfl⟩
    · -- one member left: it is not for this loop
      refine ⟨[], [], e, s, ?_, hs, .nil s, by simp, by simp⟩
      simp [sweep]
    obtain ⟨ok, s1, hrun, hs1, hstep⟩ := hvisit e s hs
    have hlt : front.length + 1 < (front ++ e :: (mid ++ [x])).length := by simp
    have hget : (front ++ e :: (mid ++ [x]))[front.length]? = some e := by simp
    simp only [List.concat_eq_append] at hf ⊢
    rcases ok with _ | _
    · -- the member is out; the last one stands in its place
      obtain ⟨vs, kept, y, s', hrest, hs', hvs, hperm, hkept⟩ := ih front (x :: mid) s1 hs1 (by simp) (by simpa using hf)
      refine ⟨(e, false) :: vs, kept, y, s', ?_, hs', .cons hstep hvs, ?_, ?_⟩
      · simp only [sweep, hlt, if_true, hget, hrun, bind, Except.bind, Bool.false_eq_true, if_false, swapRemove_inner, hrest]
      · have htail : (x :: mid).Perm (mid ++ [x]) := (List.perm_append_singleton x mid).symm
        exact (hperm.trans htail).cons e
      · exact hkept
    · obtain ⟨vs, kept, y, s', hrest, hs', hvs, hperm, hkept⟩ := ih (front ++ [e]) (mid ++ [x]) s1 hs1 (by simp) (by simpa using hf)
      refine ⟨(e, true) :: vs, e :: kept, y, s', ?_, hs', .cons hstep hvs, hperm.cons e, hkept.cons e⟩
      rw [List.length_append, List.length_singleton, List.append_assoc, List.singleton_append] at hrest
      simp only [sweep, hlt, if_true, hget, hrun, bind, Except.bind, hrest]
      simp

/-- **One sweep**: every member is visited once, and those stay whose visit succeeded -/
theorem visitAll_spec (hvisit : Performs Safe step visit) (hlast : Performs Safe step last) (l : List E) {s : S} (hs : Safe s) :
    ∃ vs kept s', visitAll visit last l s = .ok (!kept.isEmpty, kept, s') ∧ Safe s' ∧ Visits step vs s s' ∧
      (vs.map Prod.fst).Perm l ∧ kept.Perm (stayed vs) := by
  by_cases hne : l = []
  · subst hne
    exact ⟨[], [], s, by simp [visitAll, sweep, visitLast, bind, Except.bind], hs, .nil s, by simp, by simp⟩
  obtain ⟨vs, kept, x, s1, hsweep, hs1, hvs, hperm, hkept⟩ := sweep_spec hvisit (l.length + 1) [] l s hs hne (by omega)
  rw [List.length_nil, List.nil_append, List.nil_append] at hsweep
  obtain ⟨ok, s', hrun, hs', hstep⟩ := hlast x s1 hs1
  have hmore : (kept ++ [x]).isEmpty = false := by simp
  have hget : (kept ++ [x])[(kept ++ [x]).length - 1]? = some x := by simp
  have hall := hvs.append (.cons hstep (.nil s'))
  have hvisited : ((vs ++ [(x, ok)]).map Prod.fst).Perm l := by simpa using hperm
  rcases ok with _ | _
  · refine ⟨vs ++ [(x, false)], kept, s', ?_, hs', hall, hvisited, by simpa using hkept⟩
    have hout : swapRemove (kept ++ [x]) ((kept ++ [x]).length - 1) = .ok kept := by
      rw [List.length_append, List.length_singleton, Nat.add_sub_cancel, swapRemove_last]
    simp only [visitAll, hsweep, visitLast, hmore, Bool.false_eq_true, if_false, hget, hrun, hout, bind, Except.bind]
  · refine ⟨vs ++ [(x, true)], kept ++ [x], s', ?_, hs', hall, hvisited, ?_⟩
    · simp only [visitAll, hsweep, visitLast, hmore, Bool.false_eq_true, if_false, hget, hrun, bind, Except.bind, if_true]
    · rw [stayed_append]
      exact hkept.append_right [x]

end Sweep

end YouPipe.Sweep
