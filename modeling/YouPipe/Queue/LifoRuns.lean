/-
Runs of the workers on their deques.

`lifo_deques`: every run is a history of work-stealing deques: no item is lost, doubled, overwritten or read twice, an answer that a
deque is full or has nothing is right, and a deque that is dropped drops what is in it. `likely_exact`: only the first look of a steal
may overlook items, as many as were put there while it looked.
-/
import Mathlib.Tactic
import YouPipe.Core.Word
import YouPipe.Core.Window
import YouPipe.Core.Deques
import YouPipe.Core.Machine
import YouPipe.Queue.Lifo
import YouPipe.Queue.LifoInv
import YouPipe.Queue.LifoSteps

namespace YouPipe.Lifo

open YouPipe.Ring YouPipe.Deques

variable {T : Type} {cap n i : ℕ} {s s' : St T} {acts : List (Act T)}

theorem run_inv (h : Inv cap s) (hcap : cap ∣ short) (hpos : 0 < cap) (hlt : cap < short)
    (htime : Machine.Along (step cap) (Timely cap) s acts) (hrun : run cap s acts = some s') : Inv cap s' :=
  Machine.run_keeps_along (fun htimely hinv hs => step_inv hinv hcap hpos hlt htimely hs) h htime hrun

/-! ## What one step of a worker touches -/

namespace Pc

/-- the items a thief has moved and not yet published -/
def moved : Pc T → ℕ
  | .move _ _ _ k => k
  | .landPush _ _ count _ => count - 1
  | _ => 0

/-- whose deque a thief is looking at -/
def victim : Pc T → Option ℕ
  | .likelyPush j => some j
  | .likelyHead j _ => some j
  | .room j => some j
  | .bookLoad j _ => some j
  | .bookHead j _ _ _ => some j
  | .bookPush j _ _ _ _ => some j
  | .bookCas j _ _ _ _ _ => some j
  | .move j _ _ _ => some j
  | .landPush j _ _ _ => some j
  | .landHead j _ _ _ => some j
  | _ => none

end Pc

/-- a step of worker `i`: the others stay where they are, at most one item more is published or moved, and what is logged is its own -/
structure Quiet (i : ℕ) (s s' : St T) : Prop where
  pcs : ∀ u, u ≠ i → s'.pc u = s.pc u
  pushes : ∀ u, (s'.queue u).pushCount.moves + (s'.pc u).moved ≤ (s.queue u).pushCount.moves + (s.pc u).moved + 1
  log : s'.log = s.log ∨ ∃ e, s'.log = s.log ++ [e] ∧ e.party = i ∧ ∀ u j xs, e = .book u j xs → (s.pc i).victim = some j
  victim : ∀ j, (s'.pc i).victim = some j → (s.pc i).victim = some j

theorem Quiet.of {pc : Pc T} (hpc : s'.pc = Function.update s.pc i pc) (hqueue : ∀ u, (s'.queue u).pushCount = (s.queue u).pushCount)
    (hmoved : pc.moved ≤ (s.pc i).moved + 1) (hvictim : ∀ j, pc.victim = some j → (s.pc i).victim = some j)
    (hlog : s'.log = s.log ∨ ∃ e, s'.log = s.log ++ [e] ∧ e.party = i ∧ ∀ u j xs, e = .book u j xs → (s.pc i).victim = some j) :
    Quiet i s s' where
  pcs u hu := by rw [hpc, Function.update_of_ne hu]
  pushes u := by
    rw [hqueue u, hpc]
    by_cases hu : u = i
    · subst hu
      rw [Function.update_self]
      omega
    · rw [Function.update_of_ne hu]
      omega
  log := hlog
  victim j hj := by
    rw [hpc, Function.update_self] at hj
    exact hvictim j hj

theorem goto_quiet {pc : Pc T} (hmoved : pc.moved ≤ (s.pc i).moved + 1)
    (hvictim : ∀ j, pc.victim = some j → (s.pc i).victim = some j) : Quiet i s (s.goto i pc) :=
  .of rfl (fun _ => rfl) hmoved hvictim (.inl rfl)

theorem note_quiet {pc : Pc T} {e : Event T} (hmoved : pc.moved ≤ (s.pc i).moved + 1)
    (hvictim : ∀ j, pc.victim = some j → (s.pc i).victim = some j) (hparty : e.party = i)
    (hbook : ∀ u j xs, e = .book u j xs → (s.pc i).victim = some j) : Quiet i s ((s.goto i pc).note e) :=
  .of rfl (fun _ => rfl) hmoved hvictim (.inr ⟨e, rfl, hparty, hbook⟩)

/-- a queue that is written to, but for its `push_count` -/
theorem update_push {queue : ℕ → Queue T} {j : ℕ} {q : Queue T} (hq : q.pushCount = (queue j).pushCount) (u : ℕ) :
    (Function.update queue j q u).pushCount = (queue u).pushCount := by
  by_cases hu : u = j
  · subst hu
    rw [Function.update_self, hq]
  · rw [Function.update_of_ne hu]

theorem takeAt_push (s : St T) (cap j pos u : ℕ) : ((s.takeAt cap j pos).queue u).pushCount = (s.queue u).pushCount :=
  update_push (by rfl) u

theorem writeAt_push (s : St T) (cap j pos : ℕ) (x : T) (u : ℕ) :
    ((s.writeAt cap j pos x).queue u).pushCount = (s.queue u).pushCount := update_push (by rfl) u

theorem popNext_quiet {tail pop booked : Count} : Quiet i s (popNext s i tail pop booked) := by
  unfold popNext
  split
  · exact note_quiet (Nat.zero_le _) (fun j hj => by cases hj) rfl (fun _ _ _ he => by cases he)
  · exact goto_quiet (Nat.zero_le _) (fun j hj => by cases hj)

theorem bookNext_quiet {j room : ℕ} {old pop booked : Count} (hj : (s.pc i).victim = some j) :
    Quiet i s (bookNext s i j room old pop booked) := by
  unfold bookNext
  split
  · exact goto_quiet (Nat.zero_le _) fun k hk => hj.trans hk
  · exact goto_quiet (Nat.zero_le _) (fun k hk => by cases hk)

theorem ownStep_quiet {spurious : Bool} (hstep : ownStep cap s i spurious (s.pc i) = some s') : Quiet i s s' := by
  cases hpc : s.pc i with
  | pushFull x =>
    simp only [hpc, ownStep] at hstep
    split at hstep
    · cases hstep
      exact note_quiet (Nat.zero_le _) (fun j hj => by cases hj) rfl (fun _ _ _ he => by cases he)
    · cases hstep
      exact goto_quiet (Nat.zero_le _) (fun j hj => by cases hj)
  | pushWrite x =>
    simp only [hpc, ownStep] at hstep
    cases hstep
    exact .of rfl (update_push rfl) (Nat.zero_le _) (fun j hj => by cases hj) (.inl rfl)
  | pushStore x =>
    simp only [hpc, ownStep] at hstep
    cases hstep
    refine ⟨fun u hu => Function.update_of_ne hu _ _, fun u => ?_, .inr ⟨_, rfl, rfl, fun _ _ _ he => by cases he⟩, fun j hj => ?_⟩
    · by_cases hu : u = i
      · subst hu
        simp only [St.note, St.goto, St.setItems, St.setQueue, Function.update_self, Count.add, Pc.moved]
        omega
      · simp only [St.note, St.goto, St.setItems, St.setQueue, Function.update_of_ne hu]
        omega
    · simp only [St.note, St.goto, Function.update_self, Pc.victim, reduceCtorEq] at hj
  | popLoad =>
    simp only [hpc, ownStep] at hstep
    cases hstep
    exact popNext_quiet
  | popCas tail pop booked =>
    simp only [hpc, ownStep] at hstep
    split at hstep
    · cases hx : (s.items i).getLast? with
      | some x =>
        rw [hx] at hstep
        cases hstep
        exact .of rfl (update_push rfl) (Nat.zero_le _) (fun j hj => by cases hj)
          (.inr ⟨_, rfl, rfl, fun _ _ _ he => by cases he⟩)
      | none =>
        rw [hx] at hstep
        cases hstep
        exact .of rfl (update_push rfl) (Nat.zero_le _) (fun j hj => by cases hj) (.inl rfl)
    · cases hstep
      exact popNext_quiet
  | popRead tail =>
    simp only [hpc, ownStep] at hstep
    split at hstep
    · cases hstep
      exact .of rfl (update_push rfl) (Nat.zero_le _) (fun j hj => by cases hj)
        (.inr ⟨_, rfl, rfl, fun _ _ _ he => by cases he⟩)
    · cases hstep
      exact .of rfl (fun _ => rfl) (Nat.zero_le _) (fun j hj => by cases hj) (.inl rfl)
  | _ => simp only [hpc, ownStep, reduceCtorEq] at hstep

theorem thiefStep_quiet {want : ℕ} {spurious : Bool} (hstep : thiefStep cap s i want spurious (s.pc i) = some s') : Quiet i s s' := by
  cases hpc : s.pc i with
  | likelyPush j =>
    simp only [hpc, thiefStep] at hstep
    cases hstep
    exact goto_quiet (Nat.zero_le _) fun k hk => by rw [hpc]; exact hk
  | likelyHead j push =>
    simp only [hpc, thiefStep] at hstep
    cases hstep
    refine goto_quiet ?_ fun k hk => ?_
    · split <;> exact Nat.zero_le _
    · split at hk
      · cases hk
      · rw [hpc]
        exact hk
  | room j =>
    simp only [hpc, thiefStep] at hstep
    cases hstep
    exact goto_quiet (Nat.zero_le _) fun k hk => by rw [hpc]; exact hk
  | bookLoad j room =>
    simp only [hpc, thiefStep] at hstep
    cases hstep
    exact goto_quiet (Nat.zero_le _) fun k hk => by rw [hpc]; exact hk
  | bookHead j room pop booked =>
    simp only [hpc, thiefStep] at hstep
    cases hstep
    exact bookNext_quiet (by rw [hpc]; rfl)
  | bookPush j room old pop booked =>
    simp only [hpc, thiefStep] at hstep
    split at hstep
    · cases hstep
      exact note_quiet (Nat.zero_le _) (fun k hk => by cases hk) rfl (fun _ _ _ he => by cases he)
    · split at hstep
      · cases hstep
        exact goto_quiet (Nat.zero_le _) (fun k hk => by cases hk)
      · cases hstep
        exact goto_quiet (Nat.zero_le _) fun k hk => by rw [hpc]; exact hk
  | bookCas j room old pop booked count =>
    simp only [hpc, thiefStep] at hstep
    split at hstep
    · cases hstep
      refine .of rfl (update_push rfl) (Nat.zero_le _) (fun k hk => by rw [hpc]; exact hk)
        (.inr ⟨_, rfl, rfl, fun u k xs he => ?_⟩)
      cases he
      rw [hpc]
      rfl
    · cases hstep
      exact bookNext_quiet (by rw [hpc]; rfl)
  | move j start count k =>
    simp only [hpc, thiefStep] at hstep
    split at hstep
    · split at hstep
      · cases hstep
        exact .of rfl (fun u => (writeAt_push _ _ _ _ _ u).trans (takeAt_push _ _ _ _ u)) (by rw [hpc]; exact le_rfl)
          (fun u hu => by rw [hpc]; exact hu) (.inl rfl)
      · rename_i hk
        cases hstep
        refine .of rfl (update_push rfl) ?_ (fun u hu => by rw [hpc]; exact hu) (.inl rfl)
        rw [hpc]
        simp only [Pc.moved]
        omega
    · cases hstep
      exact .of rfl (fun _ => rfl) (Nat.zero_le _) (fun u hu => by cases hu) (.inl rfl)
  | landPush j start count x =>
    simp only [hpc, thiefStep] at hstep
    cases hstep
    refine ⟨fun u hu => Function.update_of_ne hu _ _, fun u => ?_, .inr ⟨_, rfl, rfl, fun _ _ _ he => by cases he⟩, fun k hk => ?_⟩
    · by_cases hu : u = i
      · subst hu
        simp only [St.note, St.goto, St.setItems, St.setHand, St.setQueue, Function.update_self, Count.add, Pc.moved, hpc]
        omega
      · simp only [St.note, St.goto, St.setItems, St.setHand, St.setQueue, Function.update_of_ne hu]
        omega
    · simp only [St.note, St.goto, Function.update_self] at hk
      rw [hpc]
      exact hk
  | landHead j start count x =>
    simp only [hpc, thiefStep] at hstep
    cases hstep
    exact .of rfl (update_push rfl) (Nat.zero_le _) (fun k hk => by cases hk) (.inr ⟨_, rfl, rfl, fun _ _ _ he => by cases he⟩)
  | _ => simp only [hpc, thiefStep, reduceCtorEq] at hstep

theorem runStep_quiet {want : ℕ} {spurious : Bool} (hstep : step cap s (.run i want spurious) = some s') : Quiet i s s' := by
  rcases Option.or_eq_some_iff.1 hstep with hown | ⟨-, hthief⟩
  · exact ownStep_quiet hown
  · exact thiefStep_quiet hthief

/-- a call begins -/
theorem start_pushes {pc : Pc T} (hmoved : pc.moved = 0) (u : ℕ) :
    ((s.goto i pc).queue u).pushCount.moves + ((s.goto i pc).pc u).moved ≤ (s.queue u).pushCount.moves + (s.pc u).moved + 1 := by
  by_cases hu : u = i
  · rw [hu, goto_self, hmoved]
    exact Nat.le_succ_of_le (Nat.le_add_right _ _)
  · rw [goto_other s hu]
    exact Nat.le_succ _

theorem step_pushes {a : Act T} (hstep : step cap s a = some s') (u : ℕ) :
    (s'.queue u).pushCount.moves + (s'.pc u).moved ≤ (s.queue u).pushCount.moves + (s.pc u).moved + 1 := by
  cases a with
  | push i x =>
    obtain ⟨-, hs⟩ := Option.ite_none_right_eq_some.1 hstep
    cases hs
    exact start_pushes rfl u
  | pop i =>
    obtain ⟨-, hs⟩ := Option.ite_none_right_eq_some.1 hstep
    cases hs
    exact start_pushes rfl u
  | steal i j =>
    obtain ⟨-, hs⟩ := Option.ite_none_right_eq_some.1 hstep
    cases hs
    exact start_pushes rfl u
  | run i want spurious => exact (runStep_quiet hstep).pushes u

/-! ## Short runs are in time -/

theorem Inv.timely (h : Inv cap s) (hpushes : ∀ j, (s.queue j).pushCount.moves + cap < short) : Timely cap s := by
  intro i
  have hcounts : ∀ j, (s.queue j).popCount.moves + (s.queue j).booked.moves + cap < short := by
    intro j
    have hq := h.queues j
    have hpops := hq.pops
    have hlen := hq.length
    have htail : (s.queue j).tail.moves = (s.queue j).pushCount.moves - (s.queue j).popCount.moves := rfl
    have hpush := hpushes j
    omega
  cases s.pc i with
  | bookHead j room pop booked => exact (hcounts j).trans_le (Nat.le_add_left _ _)
  | bookPush j room old pop booked => exact (hcounts j).trans_le (Nat.le_add_left _ _)
  | bookCas j room old pop booked count => exact (hcounts j).trans_le (Nat.le_add_left _ _)
  | _ => trivial

/-- no counter comes round in fewer than `2 ^ 32` steps less the capacity -/
theorem short_timely (hcap : cap ∣ short) (hpos : 0 < cap) (hlt : cap < short) (hlen : acts.length + cap < short) :
    Machine.Along (step cap) (Timely cap) init acts := by
  have htime : ∀ {k : ℕ} {s : St T}, k ≤ acts.length → Inv cap s →
      (∀ u, (s.queue u).pushCount.moves + (s.pc u).moved ≤ k) → Timely cap s := by
    intro k s hk hinv hpushes
    exact hinv.timely fun j => by have := hpushes j; omega
  refine Machine.along_of_count (i := 0) (n := acts.length)
    (R := fun k s => k ≤ acts.length → Inv cap s ∧ ∀ u, (s.queue u).pushCount.moves + (s.pc u).moved ≤ k) ?_ ?_ ?_ (by omega)
  · intro k a s s' h hs hk
    obtain ⟨hinv, hpushes⟩ := h (by omega)
    exact ⟨step_inv hinv hcap hpos hlt (htime (by omega) hinv hpushes) hs,
      fun u => (step_pushes hs u).trans (Nat.succ_le_succ (hpushes u))⟩
  · intro k s hk h
    obtain ⟨hinv, hpushes⟩ := h hk
    exact htime hk hinv hpushes
  · exact fun _ => ⟨init_inv, fun _ => le_rfl⟩

/-! ## Who takes part -/

/-- the workers of an action -/
def Act.workers : Act T → List ℕ
  | .push i _ => [i]
  | .pop i => [i]
  | .steal i j => [i, j]
  | .run i _ _ => [i]

/-- the workers below `n` only -/
structure Within (n : ℕ) (s : St T) : Prop where
  log : ∀ e ∈ s.log, e.party < n ∧ ∀ i j xs, e = .book i j xs → j < n
  victim : ∀ i j, (s.pc i).victim = some j → j < n

theorem Within.goto (h : Within n s) {pc : Pc T} (hpc : ∀ j, pc.victim = some j → j < n) : Within n (s.goto i pc) where
  log := h.log
  victim u j hj := by
    by_cases hu : u = i
    · rw [hu, goto_self] at hj
      exact hpc j hj
    · rw [goto_other s hu] at hj
      exact h.victim u j hj

theorem step_within (h : Within n s) {a : Act T} (ha : ∀ u ∈ a.workers, u < n) (hstep : step cap s a = some s') : Within n s' := by
  cases a with
  | push i x =>
    obtain ⟨-, hs⟩ := Option.ite_none_right_eq_some.1 hstep
    cases hs
    exact h.goto (fun j hj => by cases hj)
  | pop i =>
    obtain ⟨-, hs⟩ := Option.ite_none_right_eq_some.1 hstep
    cases hs
    exact h.goto (fun j hj => by cases hj)
  | steal i j =>
    obtain ⟨-, hs⟩ := Option.ite_none_right_eq_some.1 hstep
    cases hs
    refine h.goto fun k hk => ?_
    cases hk
    exact ha j (by simp [Act.workers])
  | run i want spurious =>
    have hquiet := runStep_quiet hstep
    have hi : i < n := ha i (by simp [Act.workers])
    refine ⟨fun e he => ?_, fun u j hj => ?_⟩
    · rcases hquiet.log with hsame | ⟨e', hlog, hparty, hbook⟩
      · exact h.log e (hsame ▸ he)
      · rw [hlog, List.mem_append, List.mem_singleton] at he
        rcases he with hold | rfl
        · exact h.log e hold
        · exact ⟨hparty ▸ hi, fun u j xs heq => h.victim i j (hbook u j xs heq)⟩
    · by_cases hu : u = i
      · rw [hu] at hj
        exact h.victim i j (hquiet.victim j hj)
      · rw [hquiet.pcs u hu] at hj
        exact h.victim u j hj

theorem run_within (hacts : ∀ a ∈ acts, ∀ u ∈ a.workers, u < n) (hrun : run cap init acts = some s) : Within n s :=
  Machine.run_keeps (fun ha h hs => step_within h (hacts _ ha) hs) ⟨fun _ he => absurd he List.not_mem_nil, (fun _ _ hj => by cases hj)⟩
    hrun

/-! ## Destruction -/

/-- `Drop`: the items that are dropped, slot by slot -/
def Queue.drop (cap : ℕ) (q : Queue T) : List (Option T) :=
  (List.range (q.tail.dist q.head)).map fun i => q.buffer ((q.head.word + i) % short % cap)

/-- with no call under way, what is dropped is what is in the deque -/
theorem Inv.drop_eq (h : Inv cap s) (hcap : cap ∣ short) (hlt : cap < short) (hidle : ∀ i, s.pc i = .idle) (j : ℕ) :
    (s.queue j).drop cap = (s.items j).map some := by
  have hq := h.queues j
  have hnone : s.thief j = none := by
    refine Option.eq_none_iff_forall_ne_some.2 fun u hu => ?_
    have hrobs := (h.thieves u j).1 hu
    rw [hidle u] at hrobs
    cases hrobs
  have hcalm := h.calm j hnone
  have hused := hq.used hlt
  have hw := h.window j
  have hle := h.content_length j
  simp only [St.content, hnone, hidle j, Pc.ahead, Option.elim_none, List.nil_append, List.map_nil, List.append_nil] at hw hle
  rw [List.length_map] at hle
  refine List.ext_getElem? fun i => ?_
  simp only [Queue.drop, hused, hcalm, Nat.sub_self, Nat.add_zero, List.getElem?_map]
  by_cases hi : i < (s.items j).length
  · rw [List.getElem?_range hi, Option.map_some, hq.head.slot hcap, hw i (by omega), List.getElem?_map, List.getElem?_eq_getElem hi]
    rfl
  · rw [List.getElem?_eq_none (by rw [List.length_range]; omega), List.getElem?_eq_none (by omega)]
    rfl

/-! ## Result -/

/-- a power of two, at most half a turn of the words -/
theorem capacity_pow {least : ℕ} (hle : least ≤ 2 ^ 31) : ∃ k, k ≤ 31 ∧ capacity least = 2 ^ k :=
  ⟨Nat.clog 2 least, Nat.clog_le_of_le_pow hle, Word.nextPowerOfTwo_eq_clog (by omega)⟩

theorem capacity_ok {least : ℕ} (hle : least ≤ 2 ^ 31) : capacity least ∣ short ∧ 0 < capacity least ∧ capacity least < short := by
  obtain ⟨k, hk, hcap⟩ := capacity_pow hle
  exact ⟨hcap ▸ Nat.pow_dvd_pow 2 (by omega), hcap ▸ Nat.two_pow_pos k, hcap ▸ Nat.pow_lt_pow_right Nat.one_lt_two (by omega)⟩

/-- any number of workers, each with a deque of its own: every run is a history of work-stealing deques; no live item is overwritten
and none is read twice; what was put in is what came out with what is still there, item for item; and the deques drop what is left -/
theorem lifo_deques {least : ℕ} (hle : least ≤ 2 ^ 31) (hacts : ∀ a ∈ acts, ∀ u ∈ a.workers, u < n)
    (htime : Machine.Along (step (capacity least)) (Timely (capacity least)) init acts)
    (hrun : run (capacity least) init acts = some s) :
    s.fault = false ∧ Accepts (capacity least) s.log s.spec ∧ (∀ j, (s.items j).length + s.spec.busy j ≤ capacity least) ∧
      (pushed s.log : Multiset T) = taken s.log + s.spec.all n ∧
      ((∀ i, s.pc i = .idle) → ∀ j, (s.queue j).drop (capacity least) = (s.items j).map some) := by
  obtain ⟨hdvd, hpos, hlt⟩ := capacity_ok hle
  have hinv := run_inv init_inv hdvd hpos hlt htime hrun
  exact ⟨hinv.sound, hinv.accepted, hinv.accepted.busy_le, hinv.accepted.conserved (run_within hacts hrun).log,
    hinv.drop_eq hdvd hlt⟩

/-- four places: worker 1 steals two of the three items of worker 0, keeps the second and moves the first, while worker 0 pops the
third and finds its deque empty -/
def stealTwo : List (Act ℕ) :=
  [1, 2, 3].flatMap (fun x => .push 0 x :: List.replicate 3 (.run 0 0 false)) ++ .steal 1 0 :: List.replicate 8 (.run 1 2 false) ++
    .pop 0 :: List.replicate 2 (.run 0 0 true) ++ List.replicate 2 (.run 0 0 false) ++ .pop 0 :: .run 0 0 false ::
      List.replicate 3 (.run 1 2 false)

theorem lifo_deques_two : ∃ s, run (capacity 3) init stealTwo = some s ∧
    s.log = [.push 0 1, .push 0 2, .push 0 3, .book 1 0 [1, 2], .pop 0 3, .got 0 3, .empty 0, .land 1 [1], .stolen 1 0 2] ∧
    (pushed s.log : Multiset ℕ) = taken s.log + s.spec.all 2 := by
  have hlog : (run (capacity 3) init stealTwo).map St.log =
      some [.push 0 1, .push 0 2, .push 0 3, .book 1 0 [1, 2], .pop 0 3, .got 0 3, .empty 0, .land 1 [1], .stolen 1 0 2] := by decide
  obtain ⟨s, hs, hlog⟩ := Option.map_eq_some_iff.1 hlog
  have hdeques := lifo_deques (n := 2) (by decide) (by decide) (short_timely (by decide) (by decide) (by decide) (by decide)) hs
  exact ⟨s, hs, hlog, hdeques.2.2.2.1⟩

/-! ## The fast path of a steal -/

/-- `is_likely_empty` compares a `push_count` that may be old with a newer `pop_count_and_head` -/
theorem Inv.likely_iff (h : Inv cap s) (hlt : cap < short) {j : ℕ} {push : Count} (hpc : s.pc i = .likelyHead j push)
    (hturn : (s.queue j).pushCount.moves < push.moves + short) :
    (push.sub (s.queue j).popCount).word = (s.queue j).booked.word ↔
      (s.items j).length = (s.queue j).pushCount.moves - push.moves := by
  obtain ⟨-, -, hok, hle⟩ := h.pc_ok hpc
  have hq := h.queues j
  have hpop := hq.pop
  have hbooked := hq.booked
  have hlen := hq.length
  have hpops := hq.pops
  have hroom := hq.room
  have hhead := hq.head_le
  simp only [Count.Ok, Count.sub, Queue.tail, short] at *
  omega

/-- a steal gives up at its first look exactly when the deque holds as many items as were put there since that look began; so the
look is right when nothing was put there in between, and only then is it sure to be -/
theorem likely_exact {least j want : ℕ} {push : Count} {spurious : Bool} (hle : least ≤ 2 ^ 31)
    (htime : Machine.Along (step (capacity least)) (Timely (capacity least)) init acts)
    (hrun : run (capacity least) init acts = some s) (hpc : s.pc i = .likelyHead j push)
    (hturn : (s.queue j).pushCount.moves < push.moves + short)
    (hstep : step (capacity least) s (.run i want spurious) = some s') :
    s'.pc i = .idle ↔ (s.items j).length = (s.queue j).pushCount.moves - push.moves := by
  obtain ⟨hdvd, hpos, hlt⟩ := capacity_ok hle
  have hinv := run_inv init_inv hdvd hpos hlt htime hrun
  rw [← hinv.likely_iff hlt hpc hturn]
  simp only [step, hpc, ownStep, thiefStep, Option.none_or] at hstep
  cases hstep
  rw [goto_self]
  split
  · rename_i hword
    exact iff_of_true rfl hword
  · rename_i hword
    exact iff_of_false (fun hidle => by cases hidle) hword

/-- item 1 is there all the time; while worker 1 looks, worker 0 puts item 2 there and takes it back -/
def overlooked : List (Act ℕ) :=
  .push 0 1 :: List.replicate 3 (.run 0 0 false) ++ .steal 1 0 :: .run 1 0 false :: .push 0 2 :: List.replicate 3 (.run 0 0 false) ++
    .pop 0 :: List.replicate 3 (.run 0 0 false)

theorem likely_exact_overlooked : ∃ s s', run (capacity 3) init overlooked = some s ∧ s.items 0 = [1] ∧
    step (capacity 3) s (.run 1 0 false) = some s' ∧ s'.pc 1 = .idle := by
  have hseen : (run (capacity 3) init overlooked).map
      (fun s => (s.items 0, s.pc 1, (s.queue 0).pushCount, (step (capacity 3) s (.run 1 0 false)).isSome)) =
      some ([1], .likelyHead 0 ⟨1, 1⟩, ⟨2, 2⟩, true) := by decide
  obtain ⟨s, hs, hseen⟩ := Option.map_eq_some_iff.1 hseen
  simp only [Prod.mk.injEq] at hseen
  obtain ⟨hitems, hpc, hpush, hsome⟩ := hseen
  obtain ⟨s', hs'⟩ := Option.isSome_iff_exists.1 hsome
  have hlikely := likely_exact (by decide) (short_timely (by decide) (by decide) (by decide) (by decide)) hs hpc
    (by rw [hpush]; decide) hs'
  exact ⟨s, s', hs, hitems, hs', hlikely.2 (by rw [hitems, hpush]; rfl)⟩

end YouPipe.Lifo
