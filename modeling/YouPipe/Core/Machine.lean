/-
Runs of a state machine whose step may be refused: `acts.foldlM step s = some s'` takes the steps `acts` from `s` to `s'`.

`run_keeps` is the invariant rule: what every step of a run keeps holds at its end. `run_descends` adds a measure that every step
lowers, which bounds the length of the run, and `run_spends` one that some steps may raise again. `run_keeps_along` is the
invariant rule for runs of which every state meets a side condition, `done_of_descends` says that such runs come to an end, and
`Leads` is what they reach.
-/
import Mathlib.Tactic

namespace YouPipe.Machine

variable {S A : Type} {step : S → A → Option S} {acts : List A} {s s' : S} {P : S → Prop}

theorem run_keeps (hstep : ∀ {a s s'}, a ∈ acts → P s → step s a = some s' → P s') (h : P s)
    (hrun : acts.foldlM step s = some s') : P s' := by
  induction acts generalizing s with
  | nil =>
    cases hrun
    exact h
  | cons a acts ih =>
    obtain ⟨s₁, hs, hrest⟩ := Option.bind_eq_some_iff.1 hrun
    exact ih (fun ha => hstep (List.mem_cons_of_mem a ha)) (hstep List.mem_cons_self h hs) hrest

theorem run_descends {f : S → ℕ} (hstep : ∀ {a s s'}, a ∈ acts → P s → step s a = some s' → P s' ∧ f s' < f s) (h : P s)
    (hrun : acts.foldlM step s = some s') : P s' ∧ acts.length + f s' ≤ f s := by
  induction acts generalizing s with
  | nil =>
    cases hrun
    exact ⟨h, by simp⟩
  | cons a acts ih =>
    obtain ⟨s₁, hs, hrest⟩ := Option.bind_eq_some_iff.1 hrun
    obtain ⟨h₁, hlt⟩ := hstep List.mem_cons_self h hs
    obtain ⟨h', hle⟩ := ih (fun ha => hstep (List.mem_cons_of_mem a ha)) h₁ hrest
    refine ⟨h', ?_⟩
    calc (a :: acts).length + f s' = acts.length + f s' + 1 := by rw [List.length_cons, Nat.add_right_comm]
      _ ≤ f s₁ + 1 := Nat.add_le_add_right hle 1
      _ ≤ f s := hlt

/-- a measure that every step of one kind lowers, where a step of another kind may raise it again by at most `b` -/
theorem run_spends (f : S → ℕ) (own back : A → Bool) {b : ℕ} (hstep : ∀ {a s s'}, a ∈ acts → P s → step s a = some s' →
      P s' ∧ (if own a then 1 else 0) + f s' ≤ (if back a then b else 0) + f s) (h : P s)
    (hrun : acts.foldlM step s = some s') : P s' ∧ acts.countP own + f s' ≤ b * acts.countP back + f s := by
  induction acts generalizing s with
  | nil =>
    cases hrun
    exact ⟨h, by simp⟩
  | cons a acts ih =>
    obtain ⟨s₁, hs, hrest⟩ := Option.bind_eq_some_iff.1 hrun
    obtain ⟨h₁, hle⟩ := hstep List.mem_cons_self h hs
    obtain ⟨h', hle'⟩ := ih (fun ha => hstep (List.mem_cons_of_mem a ha)) h₁ hrest
    refine ⟨h', ?_⟩
    have hback : b * (if back a then 1 else 0) = if back a then b else 0 := by
      rw [mul_ite, Nat.mul_one, Nat.mul_zero]
    rw [List.countP_cons, List.countP_cons, Nat.mul_add, hback]
    omega

/-- `Q` holds of every state the run goes through -/
def Along (step : S → A → Option S) (Q : S → Prop) : S → List A → Prop
  | s, [] => Q s
  | s, a :: acts => Q s ∧ ∀ s', step s a = some s' → Along step Q s' acts

/-- the invariant rule for runs along which `Q` holds -/
theorem run_keeps_along {Q : S → Prop} (hstep : ∀ {a s s'}, Q s → P s → step s a = some s' → P s') (h : P s)
    (hq : Along step Q s acts) (hrun : acts.foldlM step s = some s') : P s' := by
  induction acts generalizing s with
  | nil =>
    cases hrun
    exact h
  | cons a acts ih =>
    obtain ⟨s₁, hs, hrest⟩ := Option.bind_eq_some_iff.1 hrun
    exact ih (hstep hq.1 h hs) (hq.2 s₁ hs) hrest

/-- what holds of every state up to `n` steps away holds along runs of `n` steps -/
theorem along_of_count {Q : S → Prop} {R : ℕ → S → Prop} {i n : ℕ} (hstep : ∀ {i a s s'}, R i s → step s a = some s' → R (i + 1) s')
    (hq : ∀ {i s}, i ≤ n → R i s → Q s) (h : R i s) (hlen : i + acts.length ≤ n) : Along step Q s acts := by
  induction acts generalizing s i with
  | nil => exact hq hlen h
  | cons a acts ih =>
    rw [List.length_cons] at hlen
    exact ⟨hq (by omega) h, fun s' hs => ih (hstep h hs) (by omega)⟩

theorem Along.last {Q : S → Prop} (hq : Along step Q s acts) (hrun : acts.foldlM step s = some s') : Q s' := by
  induction acts generalizing s with
  | nil =>
    cases hrun
    exact hq
  | cons a acts ih =>
    obtain ⟨s₁, hs, hrest⟩ := Option.bind_eq_some_iff.1 hrun
    exact ih (hq.2 s₁ hs) hrest

/-- what comes after a run along which `Q` holds -/
theorem Along.after {Q : S → Prop} {acts' : List A} (hq : Along step Q s (acts ++ acts')) (hrun : acts.foldlM step s = some s') :
    Along step Q s' acts' := by
  induction acts generalizing s with
  | nil =>
    cases hrun
    exact hq
  | cons a acts ih =>
    obtain ⟨s₁, hs, hrest⟩ := Option.bind_eq_some_iff.1 hrun
    exact ih (hq.2 s₁ hs) hrest

theorem Along.before {Q : S → Prop} {acts' : List A} (hq : Along step Q s (acts ++ acts')) : Along step Q s acts := by
  induction acts generalizing s with
  | nil =>
    cases acts' with
    | nil => exact hq
    | cons a acts' => exact hq.1
  | cons a acts ih => exact ⟨hq.1, fun s₁ hs => ih (hq.2 s₁ hs)⟩

/-- actions that can always be taken, each at the cost of `f`, until `D` holds -/
theorem done_of_descends {Q D : S → Prop} {f : S → ℕ} (hkeep : ∀ {a s s'}, Q s → P s → step s a = some s' → P s')
    (hpos : ∀ {s}, P s → ¬ D s → 0 < f s)
    (hstep : ∀ {a s}, a ∈ acts → Q s → P s → ¬ D s → ∃ s', step s a = some s' ∧ f s' < f s) (h : P s)
    (hq : Along step Q s acts) (hn : f s ≤ acts.length) :
    ∃ m, m ≤ acts.length ∧ ∃ s', (acts.take m).foldlM step s = some s' ∧ D s' := by
  induction acts generalizing s with
  | nil =>
    have hd : D s := by
      by_contra hd
      exact Nat.not_lt_of_le hn (hpos h hd)
    exact ⟨0, le_rfl, s, rfl, hd⟩
  | cons a acts ih =>
    by_cases hd : D s
    · exact ⟨0, Nat.zero_le _, s, rfl, hd⟩
    · obtain ⟨s₁, hs, hlt⟩ := hstep List.mem_cons_self hq.1 h hd
      have hleft : f s₁ ≤ acts.length := Nat.le_of_lt_succ (hlt.trans_le hn)
      obtain ⟨m, hm, s', hrun, hd'⟩ := ih (fun ha => hstep (List.mem_cons_of_mem a ha)) (hkeep hq.1 h hs) (hq.2 s₁ hs) hleft
      refine ⟨m + 1, Nat.succ_le_succ hm, s', ?_, hd'⟩
      rw [List.take_succ_cons, List.foldlM_cons, hs]
      exact hrun

/-- some run along which `Q` holds leads from `s` to `s'` -/
def Leads (step : S → A → Option S) (Q : S → Prop) (s s' : S) : Prop :=
  ∃ acts : List A, acts.foldlM step s = some s' ∧ Along step Q s acts

theorem Leads.refl {Q : S → Prop} (h : Q s) : Leads step Q s s := ⟨[], rfl, h⟩

theorem Leads.cons {Q : S → Prop} (a : A) (s₁ : S) (h : Q s) (hs : step s a = some s₁) (hrest : Leads step Q s₁ s') :
    Leads step Q s s' := by
  obtain ⟨acts, hrun, halong⟩ := hrest
  refine ⟨a :: acts, ?_, h, fun s₂ hs₂ => ?_⟩
  · rw [List.foldlM_cons, hs]
    exact hrun
  · cases hs.symm.trans hs₂
    exact halong

theorem Leads.trans {Q : S → Prop} {s₁ : S} (h : Leads step Q s s₁) (h' : Leads step Q s₁ s') : Leads step Q s s' := by
  obtain ⟨acts, hrun, halong⟩ := h
  induction acts generalizing s with
  | nil =>
    cases hrun
    exact h'
  | cons a acts ih =>
    obtain ⟨s₂, hs, hrest⟩ := Option.bind_eq_some_iff.1 hrun
    exact .cons a s₂ halong.1 hs (ih hrest (halong.2 s₂ hs))

end YouPipe.Machine
