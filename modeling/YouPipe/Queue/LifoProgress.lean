/-
No worker waits for another. A thief that finds another at work on a deque gives up, and an exchange that fails has just seen the
words it needs.

`alone_finishes`: whatever the others are in the middle of, a worker that goes on alone ends its call within `capacity + 10` steps.
-/
import Mathlib.Tactic
import YouPipe.Core.Deques
import YouPipe.Core.Machine
import YouPipe.Queue.Lifo
import YouPipe.Queue.LifoInv
import YouPipe.Queue.LifoSteps
import YouPipe.Queue.LifoRuns

namespace YouPipe.Lifo

open YouPipe.Ring YouPipe.Deques

variable {T : Type} {cap i want : ℕ} {s s' : St T} {acts : List (Act T)}

/-! ## The steps a call has left -/

/-- the words of `pop_count_and_head` are still those that were loaded -/
def Fresh (q : Queue T) (pop booked : Count) : Prop := q.popCount.word = pop.word ∧ q.booked.word = booked.word

instance (q : Queue T) (pop booked : Count) : Decidable (Fresh q pop booked) := inferInstanceAs (Decidable (_ ∧ _))

/-- an exchange that is bound to fail costs one more round -/
def effort (cap : ℕ) (queue : ℕ → Queue T) (i : ℕ) : Pc T → ℕ
  | .idle => 0
  | .pushFull _ => 3
  | .pushWrite _ => 2
  | .pushStore _ => 1
  | .popLoad => 4
  | .popCas _ pop booked => if Fresh (queue i) pop booked then 2 else 3
  | .popRead _ => 1
  | .likelyPush _ => cap + 10
  | .likelyHead _ _ => cap + 9
  | .room _ => cap + 8
  | .bookLoad _ room => room + 6
  | .bookHead j room pop booked => if Fresh (queue j) pop booked then room + 5 else room + 7
  | .bookPush j room _ pop booked => if Fresh (queue j) pop booked then room + 4 else room + 6
  | .bookCas j room _ pop booked count => if Fresh (queue j) pop booked then count + 3 else room + 5
  | .move _ _ count k => count - k + 2
  | .landPush _ _ _ _ => 2
  | .landHead _ _ _ _ => 1

def St.effort (s : St T) (cap i : ℕ) : ℕ := Lifo.effort cap s.queue i (s.pc i)

theorem effort_goto (s : St T) (cap i : ℕ) (pc : Pc T) : (s.goto i pc).effort cap i = Lifo.effort cap s.queue i pc := by
  simp only [St.effort, goto_self]
  rfl

theorem effort_popNext {tail pop booked : Count} (hfresh : Fresh (s.queue i) pop booked) :
    (popNext s i tail pop booked).effort cap i ≤ 2 := by
  unfold popNext
  split
  · simp only [St.effort, St.note, goto_self, Lifo.effort]
    exact Nat.zero_le _
  · rw [effort_goto]
    simp only [Lifo.effort, if_pos hfresh]
    exact le_rfl

theorem effort_bookNext {j room n : ℕ} {old pop booked : Count}
    (hn : (if Fresh (s.queue j) pop booked then room + 4 else room + 6) ≤ n) :
    (bookNext s i j room old pop booked).effort cap i ≤ n := by
  unfold bookNext
  split
  · rw [effort_goto]
    exact hn
  · rw [effort_goto]
    exact Nat.zero_le _

/-! ## One step -/

theorem ownStep_effort (h : Inv cap s) (hstep : ownStep cap s i false (s.pc i) = some s') : s'.effort cap i < s.effort cap i := by
  have hnow : s.effort cap i = Lifo.effort cap s.queue i (s.pc i) := rfl
  cases hpc : s.pc i with
  | pushFull x =>
    simp only [hpc, ownStep] at hstep
    rw [hnow, hpc]
    split at hstep
    · cases hstep
      simp only [St.effort, St.note, goto_self, Lifo.effort]
      exact Nat.succ_pos _
    · cases hstep
      rw [effort_goto]
      exact Nat.lt_succ_self _
  | pushWrite x =>
    simp only [hpc, ownStep] at hstep
    cases hstep
    rw [hnow, hpc, effort_goto]
    exact Nat.lt_succ_self _
  | pushStore x =>
    simp only [hpc, ownStep] at hstep
    cases hstep
    rw [hnow, hpc]
    simp only [St.effort, St.note, goto_self, Lifo.effort]
    exact Nat.succ_pos _
  | popLoad =>
    simp only [hpc, ownStep] at hstep
    cases hstep
    have hle : (popNext s i (s.queue i).tail (s.queue i).popCount (s.queue i).booked).effort cap i ≤ 2 := effort_popNext ⟨rfl, rfl⟩
    rw [hnow, hpc]
    simp only [Lifo.effort]
    omega
  | popCas tail pop booked =>
    obtain ⟨-, -, rfl, -⟩ := h.pc_ok hpc
    simp only [hpc, ownStep, and_true, true_and] at hstep
    split at hstep
    · rename_i hcond
      rw [hnow, hpc]
      simp only [Lifo.effort, if_pos (show Fresh (s.queue i) (s.queue i).popCount booked from ⟨rfl, hcond⟩)]
      split at hstep
      · cases hstep
        simp only [St.effort, St.note, St.setHand, goto_self, Lifo.effort]
        exact Nat.lt_succ_self _
      · cases hstep
        simp only [St.effort, goto_self, Lifo.effort]
        exact Nat.lt_succ_self _
    · rename_i hcond
      cases hstep
      have hle : (popNext s i tail (s.queue i).popCount (s.queue i).booked).effort cap i ≤ 2 := effort_popNext ⟨rfl, rfl⟩
      rw [hnow, hpc]
      simp only [Lifo.effort, if_neg (show ¬ Fresh (s.queue i) (s.queue i).popCount booked from fun hf => hcond hf.2)]
      omega
  | popRead tail =>
    simp only [hpc, ownStep] at hstep
    rw [hnow, hpc]
    split at hstep
    · cases hstep
      simp only [St.effort, St.note, goto_self, Lifo.effort]
      exact Nat.succ_pos _
    · cases hstep
      simp only [St.effort, goto_self, Lifo.effort]
      exact Nat.succ_pos _
  | _ => simp only [hpc, ownStep, reduceCtorEq] at hstep

theorem thiefStep_effort (h : Inv cap s) (hstep : thiefStep cap s i want false (s.pc i) = some s') :
    s'.effort cap i < s.effort cap i := by
  have hnow : s.effort cap i = Lifo.effort cap s.queue i (s.pc i) := rfl
  cases hpc : s.pc i with
  | likelyPush j =>
    simp only [hpc, thiefStep] at hstep
    cases hstep
    rw [hnow, hpc, effort_goto]
    exact Nat.lt_succ_self _
  | likelyHead j push =>
    simp only [hpc, thiefStep] at hstep
    cases hstep
    rw [hnow, hpc, effort_goto]
    split
    · exact Nat.succ_pos _
    · exact Nat.lt_succ_self _
  | room j =>
    simp only [hpc, thiefStep] at hstep
    cases hstep
    rw [hnow, hpc, effort_goto]
    simp only [Lifo.effort]
    omega
  | bookLoad j room =>
    simp only [hpc, thiefStep] at hstep
    cases hstep
    rw [hnow, hpc, effort_goto]
    simp only [Lifo.effort, if_pos (show Fresh (s.queue j) (s.queue j).popCount (s.queue j).booked from ⟨rfl, rfl⟩)]
    exact Nat.lt_succ_self _
  | bookHead j room pop booked =>
    simp only [hpc, thiefStep] at hstep
    cases hstep
    have hle : (bookNext s i j room (s.queue j).head pop booked).effort cap i ≤
        if Fresh (s.queue j) pop booked then room + 4 else room + 6 := effort_bookNext le_rfl
    rw [hnow, hpc]
    simp only [Lifo.effort]
    by_cases hfresh : Fresh (s.queue j) pop booked
    · rw [if_pos hfresh] at hle ⊢
      omega
    · rw [if_neg hfresh] at hle ⊢
      omega
  | bookPush j room old pop booked =>
    simp only [hpc, thiefStep] at hstep
    rw [hnow, hpc]
    split at hstep
    · cases hstep
      simp only [St.effort, St.note, goto_self, Lifo.effort]
      split <;> exact Nat.succ_pos _
    · split at hstep
      · cases hstep
        rw [effort_goto]
        simp only [Lifo.effort]
        split <;> exact Nat.succ_pos _
      · cases hstep
        rw [effort_goto]
        simp only [Lifo.effort]
        split <;> omega
  | bookCas j room old pop booked count =>
    simp only [hpc, thiefStep, and_true] at hstep
    rw [hnow, hpc]
    split at hstep
    · rename_i hcond
      cases hstep
      simp only [St.effort, St.note, goto_self, Lifo.effort, if_pos (show Fresh (s.queue j) pop booked from hcond)]
      omega
    · rename_i hcond
      cases hstep
      have hnew : Fresh (s.queue j) (s.queue j).popCount (s.queue j).booked := ⟨rfl, rfl⟩
      have hle : (bookNext s i j room old (s.queue j).popCount (s.queue j).booked).effort cap i ≤ room + 4 :=
        effort_bookNext (by rw [if_pos hnew])
      simp only [Lifo.effort, if_neg (show ¬ Fresh (s.queue j) pop booked from hcond)]
      omega
  | move j start count k =>
    obtain ⟨-, -, hk, -, -⟩ := h.pc_ok hpc
    simp only [hpc, thiefStep] at hstep
    rw [hnow, hpc]
    split at hstep
    · split at hstep
      · cases hstep
        simp only [St.effort, goto_self, Lifo.effort]
        omega
      · cases hstep
        simp only [St.effort, goto_self, Lifo.effort]
        omega
    · cases hstep
      simp only [St.effort, goto_self, Lifo.effort]
      omega
  | landPush j start count x =>
    simp only [hpc, thiefStep] at hstep
    cases hstep
    rw [hnow, hpc]
    simp only [St.effort, St.note, goto_self, Lifo.effort]
    exact Nat.lt_succ_self _
  | landHead j start count x =>
    simp only [hpc, thiefStep] at hstep
    cases hstep
    rw [hnow, hpc]
    simp only [St.effort, St.note, goto_self, Lifo.effort]
    exact Nat.succ_pos _
  | _ => simp only [hpc, thiefStep, reduceCtorEq] at hstep

/-- a worker in a call always has a step to take -/
theorem step_enabled (hbusy : s.pc i ≠ .idle) : ∃ s', step cap s (.run i want false) = some s' := by
  suffices hsome : ((ownStep cap s i false (s.pc i)).or (thiefStep cap s i want false (s.pc i))).isSome = true from
    Option.isSome_iff_exists.1 hsome
  cases hpc : s.pc i with
  | idle => exact absurd hpc hbusy
  | pushFull x =>
    simp only [ownStep]
    split <;> rfl
  | popCas tail pop booked =>
    simp only [ownStep]
    split
    · split <;> rfl
    · rfl
  | popRead tail =>
    simp only [ownStep]
    split <;> rfl
  | bookPush j room old pop booked =>
    simp only [ownStep, thiefStep]
    split
    · rfl
    · split <;> rfl
  | bookCas j room old pop booked count =>
    simp only [ownStep, thiefStep]
    split <;> rfl
  | move j start count k =>
    simp only [ownStep, thiefStep]
    split
    · split <;> rfl
    · rfl
  | _ => rfl

theorem step_effort (h : Inv cap s) (hbusy : s.pc i ≠ .idle) :
    ∃ s', step cap s (.run i want false) = some s' ∧ s'.effort cap i < s.effort cap i := by
  obtain ⟨s', hs⟩ : ∃ s', step cap s (.run i want false) = some s' := step_enabled hbusy
  refine ⟨s', hs, ?_⟩
  rcases Option.or_eq_some_iff.1 hs with hown | ⟨-, hthief⟩
  · exact ownStep_effort h hown
  · exact thiefStep_effort h hthief

theorem effort_pos (h : Inv cap s) (hbusy : s.pc i ≠ .idle) : 0 < s.effort cap i := by
  obtain ⟨s', -, hlt⟩ : ∃ s', step cap s (.run i 0 false) = some s' ∧ s'.effort cap i < s.effort cap i := step_effort h hbusy
  exact Nat.zero_lt_of_lt hlt

/-- no call has more than `cap + 10` steps left -/
theorem Inv.effort_le (h : Inv cap s) (i : ℕ) : s.effort cap i ≤ cap + 10 := by
  have hroom : ∀ {room}, Fits cap (s.queue i) room → room ≤ cap + 1 := by
    intro room hfits
    have hle := (h.queues i).head_le_tail
    unfold Fits at hfits
    omega
  have hok := h.pcs i
  unfold St.effort
  generalize s.pc i = pc at hok
  cases pc with
  | popCas tail pop booked =>
    simp only [Lifo.effort]
    split <;> omega
  | bookLoad j room =>
    have hle := hroom hok.2.2
    simp only [Lifo.effort]
    omega
  | bookHead j room pop booked =>
    have hle := hroom hok.2.2.1
    simp only [Lifo.effort]
    split <;> omega
  | bookPush j room old pop booked =>
    have hle := hroom hok.2.2.1
    simp only [Lifo.effort]
    split <;> omega
  | bookCas j room old pop booked count =>
    obtain ⟨-, -, hfits, -, -, -, hcount, -⟩ := hok
    have hle := hroom hfits
    simp only [Lifo.effort]
    split <;> omega
  | move j start count k =>
    have hle := hroom hok.2.2.2.2
    simp only [Lifo.effort]
    omega
  | _ =>
    simp only [Lifo.effort]
    omega

/-! ## Result -/

/-- `n` steps of a worker that goes on alone; `want k` is what `count_fn` returns in the `k`-th -/
def alone (i : ℕ) (want : ℕ → ℕ) (n : ℕ) : List (Act T) := (List.range n).map fun k => .run i (want k) false

theorem alone_take {want : ℕ → ℕ} {m n : ℕ} (h : m ≤ n) : (alone i want n : List (Act T)).take m = alone i want m := by
  rw [alone, ← List.map_take, List.take_range, Nat.min_eq_left h, alone]

/-- after any run, with the other workers stopped wherever they are, a worker that goes on alone is done within `capacity + 10`
steps, whatever numbers its `count_fn` returns on the way: nobody waits for a thief that is slow -/
theorem alone_finishes {least : ℕ} (hle : least ≤ 2 ^ 31) {want : ℕ → ℕ}
    (htime : Machine.Along (step (capacity least)) (Timely (capacity least)) init (acts ++ alone i want (capacity least + 10)))
    (hrun : run (capacity least) init acts = some s) :
    ∃ n, n ≤ capacity least + 10 ∧ ∃ s', run (capacity least) s (alone i want n) = some s' ∧ s'.pc i = .idle := by
  obtain ⟨hdvd, hpos, hlt⟩ := capacity_ok hle
  have hinv := run_inv init_inv hdvd hpos hlt htime.before hrun
  have hlen : (alone i want (capacity least + 10) : List (Act T)).length = capacity least + 10 := by
    rw [alone, List.length_map, List.length_range]
  have hstep : ∀ {a : Act T} {s : St T}, a ∈ alone i want (capacity least + 10) → Inv (capacity least) s → s.pc i ≠ .idle →
      ∃ s', step (capacity least) s a = some s' ∧ s'.effort (capacity least) i < s.effort (capacity least) i := by
    intro a s ha h hbusy
    obtain ⟨k, -, rfl⟩ := List.mem_map.1 ha
    exact step_effort h hbusy
  obtain ⟨n, hn, s', hend, hidle⟩ := Machine.done_of_descends (P := Inv (capacity least)) (f := fun s => s.effort (capacity least) i)
    (D := fun s => s.pc i = .idle) (fun htimely h hs => step_inv h hdvd hpos hlt htimely hs) effort_pos
    (fun ha _ h hbusy => hstep ha h hbusy) hinv (htime.after hrun) (hlen.symm ▸ hinv.effort_le i)
  rw [hlen] at hn
  rw [alone_take hn] at hend
  exact ⟨n, hn, s', hend, hidle⟩

/-- worker 1 has claimed two items of worker 0 and stops; worker 2, which looked at the deque before that, goes on alone -/
def lateThief : List (Act ℕ) :=
  [1, 2, 3].flatMap (fun x => .push 0 x :: List.replicate 3 (.run 0 0 false)) ++ .steal 2 0 :: List.replicate 5 (.run 2 1 false) ++
    .steal 1 0 :: List.replicate 8 (.run 1 2 false)

theorem alone_finishes_late : ∃ s, run (capacity 3) init lateThief = some s ∧ (s.pc 1).robs = some 0 ∧
    ∃ n, n ≤ 14 ∧ ∃ s', run (capacity 3) s (alone 2 (fun k => k) n) = some s' ∧ s'.pc 2 = .idle := by
  have hrobs : (run (capacity 3) init lateThief).map (fun s => (s.pc 1).robs) = some (some 0) := by decide
  obtain ⟨s, hs, hrobs⟩ := Option.map_eq_some_iff.1 hrobs
  exact ⟨s, hs, hrobs, alone_finishes (i := 2) (by decide) (short_timely (by decide) (by decide) (by decide) (by decide)) hs⟩

end YouPipe.Lifo
