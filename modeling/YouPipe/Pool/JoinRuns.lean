/-
Runs of the pool of `join`s. Every call is answered once (`run_calls`), a pool with work to do is never stuck (`Inv.progress`), and
every step lowers `toDo`, the number of steps the programs can still take on any way they can go. So every schedule comes to its end.
-/
import Mathlib.Tactic
import YouPipe.Core.Machine
import YouPipe.Core.Places
import YouPipe.Pool.Join
import YouPipe.Pool.JoinInv

namespace YouPipe.Join

open YouPipe.Places

variable {P V : Type}

section Runs

variable {s s' : St P V} {place : ℕ → Option Place} {owner : ℕ → Option (Option ℕ)} {n cap w j : ℕ} {busy : Bool}

/-! ## What a step leaves alone -/

/-- a step of worker `w` -/
structure Local (s : St P V) (w : ℕ) (s' : St P V) : Prop where
  ext : s'.ext = s.ext
  outcomes : s'.outcomes = s.outcomes
  code : ∀ i, i < s.fresh → s'.code i = s.code i
  worker : ∀ u, u ≠ w → s'.worker u = s.worker u
  deque : ∀ u, u ≠ w → s.deque u = [] → s'.deque u = []

theorem Local.setWorker (h : Local s w s') (t : Worker P V) : Local s w (s'.setWorker w t) where
  ext := h.ext
  outcomes := h.outcomes
  code := h.code
  worker u hu := by
    rw [setWorker_other s' hu]
    exact h.worker u hu
  deque := h.deque

theorem local_setJob (s : St P V) (w j : ℕ) (b : Job P V) : Local s w (s.setJob j b) :=
  ⟨rfl, rfl, fun _ _ => rfl, fun _ _ => rfl, fun _ _ h => h⟩

theorem local_refl (s : St P V) (w : ℕ) : Local s w s := ⟨rfl, rfl, fun _ _ => rfl, fun _ _ => rfl, fun _ _ h => h⟩

theorem Pulled.empty {q : Place} (hp : Pulled s q j s') {u : ℕ} (hu : s.deque u = []) : s'.deque u = [] := by
  have hq : Place.deque u ≠ q := by
    rintro rfl
    have hout := hp.out
    rw [St.holds, hu] at hout
    exact List.cons_ne_nil _ _ hout.nil_eq.symm
  have hrest : s'.holds (.deque u) = s.holds (.deque u) := hp.rest _ hq
  exact hrest.trans hu

theorem Inv.start_local (h : Inv s place owner) {q : Place} (hp : Pulled s q j s') (st : List (Frame P V)) :
    Local s w (s'.start w j st) := by
  have hsame : Local s w (s'.setJob j ⟨none, none, false, true⟩) := by
    have hempty : ∀ u, u ≠ w → s.deque u = [] → s'.deque u = [] := fun u _ hu => hp.empty hu
    rw [hp.same]
    exact ⟨rfl, rfl, fun _ _ => rfl, fun _ _ => rfl, hempty⟩
  rw [h.start_eq hp]
  exact hsame.setWorker _

theorem Inv.move_local (h : Inv s place owner) (hm : Move cap s w s') : Local s w s' := by
  cases hm with
  | done hw => exact (local_refl s w).setWorker _
  | fork hw =>
    refine Local.setWorker ⟨?_, ?_, fun i hi => ?_, fun u _ => ?_, fun u hu hempty => ?_⟩ _
    · rw [push_same]
      rfl
    · rw [push_same]
      rfl
    · rw [push_same]
      exact Function.update_of_ne hi.ne _ _
    · rw [push_same]
      rfl
    · unfold St.push
      split_ifs
      · exact (Function.update_of_ne hu _ _).trans hempty
      · exact hempty
  | endA hw => exact (local_refl s w).setWorker _
  | endB hw => exact (local_setJob s w _ _).setWorker _
  | unwind hw => exact (local_setJob s w _ _).setWorker _
  | captured hw => exact (local_setJob s w _ _).setWorker _
  | write hw => exact (local_setJob s w _ _).setWorker _
  | latch hw => exact (local_setJob s w _ _).setWorker _
  | settle hw he hl hb => exact (local_setJob s w _ _).setWorker _
  | unset hw => exact (local_refl s w).setWorker _
  | drained hw => exact (local_refl s w).setWorker _
  | inline hw hp => exact h.start_local hp _
  | capture hw hp => exact h.start_local hp _
  | other hw hlast => exact h.start_local (pulled_last hlast) _

/-! ## Every call is answered once -/

/-- the closures that come from outside -/
def submitted (acts : List (Act P V)) : List (Prog P V) :=
  acts.filterMap fun a =>
    match a with
    | .submit p => some p
    | _ => none

/-- the closures of the calls that wait or are answered -/
def St.calls (s : St P V) : List (Prog P V) := (s.ext ++ s.outcomes.map (·.1)).map s.code

theorem Inv.call_lt (h : Inv s place owner) {i : ℕ} (hi : i ∈ s.ext ++ s.outcomes.map (·.1)) : i < s.fresh := by
  rcases List.mem_append.1 hi with hi | hi
  · by_contra hge
    have hsome := (h.owned.mem none i).1 hi
    rw [h.bound i (Nat.le_of_not_lt hge)] at hsome
    cases hsome
  · obtain ⟨x, hx, rfl⟩ := List.mem_map.1 hi
    exact (h.answers x hx).1

theorem Local.calls (hl : Local s w s') (h : Inv s place owner) : s'.calls = s.calls := by
  unfold St.calls
  rw [hl.ext, hl.outcomes]
  exact List.map_congr_left fun i hi => hl.code i (h.call_lt hi)

theorem Inv.step_calls (h : Inv s place owner) {a : Act P V} (hs : step n cap s a = some s') :
    s'.calls.Perm (s.calls ++ submitted [a]) := by
  cases a with
  | work w busy =>
    rw [(h.move_local (h.work_move (work_cases hs).2)).calls h, submitted, List.filterMap_cons_none rfl, List.filterMap_nil, List.append_nil]
  | find w src =>
    obtain ⟨-, -, i, q, s₁, hp, rfl⟩ := find_cases hs
    rw [(h.start_local (w := w) hp _).calls h, submitted, List.filterMap_cons_none rfl, List.filterMap_nil, List.append_nil]
  | submit p =>
    cases hs
    have hold : (s.ext ++ s.outcomes.map (·.1)).map (Function.update s.code s.fresh p) = s.calls :=
      List.map_congr_left fun i hi => Function.update_of_ne (h.call_lt hi).ne _ _
    have hnew : ((s.fresh :: s.ext) ++ s.outcomes.map (·.1)).map (Function.update s.code s.fresh p) = p :: s.calls := by
      rw [List.cons_append, List.map_cons, Function.update_self, hold]
    exact (List.Perm.of_eq hnew).trans (List.perm_append_singleton p s.calls).symm
  | collect j =>
    obtain ⟨hj, -, r, -, rfl⟩ := h.collect_cases hs
    have hperm : (s.ext.erase j ++ (s.outcomes ++ [(j, r)]).map (·.1)).Perm (s.ext ++ s.outcomes.map (·.1)) := by
      rw [List.map_append, ← List.append_assoc]
      exact ((List.perm_append_singleton j _).trans ((List.perm_cons_erase hj).symm.append_right _))
    rw [submitted, List.filterMap_cons_none rfl, List.filterMap_nil, List.append_nil]
    exact hperm.map s.code

theorem run_calls {acts : List (Act P V)} (h : ∃ place owner, Inv s place owner) (hrun : run n cap s acts = some s') :
    s'.calls.Perm (s.calls ++ submitted acts) := by
  induction acts generalizing s with
  | nil =>
    cases hrun
    rw [submitted, List.filterMap_nil, List.append_nil]
  | cons a acts ih =>
    obtain ⟨s₁, hs, hrest⟩ := Option.bind_eq_some_iff.1 hrun
    obtain ⟨place, owner, hinv⟩ := h
    have hstep := hinv.step_calls hs
    have hlater := ih (step_inv ⟨place, owner, hinv⟩ hs) hrest
    have hsplit : submitted (a :: acts) = submitted [a] ++ submitted acts := by
      rw [submitted, submitted, submitted, ← List.filterMap_append, List.singleton_append]
    rw [hsplit, ← List.append_assoc]
    exact hlater.trans (hstep.append_right _)

/-! ## The pool is not stuck -/

/-- there are `n` workers -/
def Outside (n : ℕ) (s : St P V) : Prop := ∀ u, n ≤ u → s.worker u = ⟨.resume, []⟩ ∧ s.deque u = []

theorem Local.outside (hl : Local s w s') (hw : w < n) (h : Outside n s) : Outside n s' := by
  intro u hu
  have hne : u ≠ w := by omega
  rw [hl.worker u hne]
  exact ⟨(h u hu).1, hl.deque u hne (h u hu).2⟩

theorem step_outside {a : Act P V} (h : Inv s place owner) (hout : Outside n s) (hs : step n cap s a = some s') : Outside n s' := by
  cases a with
  | work w busy =>
    obtain ⟨hw, hwork⟩ := work_cases hs
    exact (h.move_local (h.work_move hwork)).outside hw hout
  | find w src =>
    obtain ⟨hw, -, i, q, s₁, hp, rfl⟩ := find_cases hs
    exact (h.start_local hp _).outside hw hout
  | submit p =>
    cases hs
    exact hout
  | collect j =>
    obtain ⟨-, -, r, -, rfl⟩ := h.collect_cases hs
    exact hout

/-- a worker that cannot go on by itself is idle or waits -/
theorem Inv.work_none (h : Inv s place owner) (hs : work cap busy s w (s.worker w) = none) :
    s.worker w = ⟨.resume, []⟩ ∨ ∃ j ra k st, s.worker w = ⟨.resume, .wait j ra k :: st⟩ ∧ (s.job j).latch = false := by
  obtain ⟨c, st, hw⟩ : ∃ c st, s.worker w = ⟨c, st⟩ := ⟨_, _, rfl⟩
  have hok := h.workers w
  rw [hw] at hs hok
  cases c with
  | run p => cases p <;> cases hs
  | ret r =>
    obtain ⟨g, hneeds, hr⟩ := hok
    cases st with
    | nil => exact hneeds.elim
    | cons e st =>
      cases e with
      | runA => cases hs
      | inlineB => cases r <;> cases hs
      | capturedB => cases hs
      | exec =>
        rw [work] at hs
        split_ifs at hs
      | loop => exact hneeds.elim
      | pop => exact hneeds.elim
      | wait => exact hneeds.elim
      | finish => exact hneeds.elim
  | resume =>
    cases st with
    | nil => exact .inl hw
    | cons e st =>
      cases e with
      | runA => exact hok.elim
      | inlineB => exact hok.elim
      | capturedB => exact hok.elim
      | exec => exact hok.elim
      | finish =>
        rw [work] at hs
        split_ifs at hs
      | loop j ra k =>
        have hprobe : s.probe j = some (s.job j).latch := h.probe_top hw
        simp only [work, hprobe] at hs
        cases hl : (s.job j).latch <;> rw [hl] at hs <;> cases hs
      | pop j ra k =>
        simp only [work] at hs
        split at hs
        · cases hs
        · split_ifs at hs
          split at hs <;> cases hs
      | wait j ra k =>
        have hprobe : s.probe j = some (s.job j).latch := h.probe_top hw
        simp only [work, hprobe] at hs
        cases hl : (s.job j).latch with
        | true =>
          rw [hl] at hs
          cases hs
        | false => exact .inr ⟨j, ra, k, st, hw, hl⟩

/-- no step but a new call -/
def Stuck (n cap : ℕ) (s : St P V) : Prop := ∀ a, submitted [a] = [] → step n cap s a = none

/-- every worker is idle or waits -/
theorem Inv.stuck_worker (h : Inv s place owner) (hout : Outside n s) (hstuck : Stuck n cap s) (u : ℕ) :
    s.worker u = ⟨.resume, []⟩ ∨ ∃ j ra k st, s.worker u = ⟨.resume, .wait j ra k :: st⟩ ∧ (s.job j).latch = false := by
  by_cases hu : u < n
  · have hnone := hstuck (.work u false) rfl
    rw [step, if_pos hu] at hnone
    exact h.work_none hnone
  · exact .inl (hout u (Nat.le_of_not_lt hu)).1

theorem Inv.stuck_take (h : Inv s place owner) (hout : Outside n s) (hstuck : Stuck n cap s) {u : ℕ} (hu : u < n) (src : Source) :
    take s u src = none := by
  have hlooks : (s.worker u).looks = true := by
    rcases h.stuck_worker hout hstuck u with hw | ⟨j, ra, k, st, hw, -⟩
    · rw [hw]
      rfl
    · rw [hw]
      rfl
  have hnone := hstuck (.find u src) rfl
  rw [step, if_pos ⟨hu, hlooks⟩] at hnone
  cases htake : take s u src with
  | none => rfl
  | some x =>
    rw [htake] at hnone
    cases hnone

/-- all queues are empty -/
theorem Inv.stuck_place (h : Inv s place owner) (hn : 0 < n) (hout : Outside n s) (hstuck : Stuck n cap s) {q : Place}
    (hq : place j = some q) : ∃ u, q = .exec u := by
  have hmem := (h.placed.mem q j).2 hq
  cases q with
  | deque v =>
    by_cases hv : v < n
    · have htake := h.stuck_take hout hstuck hv .deque
      simp only [take] at htake
      cases hlast : (s.deque v).getLast? with
      | none =>
        rw [St.holds, List.getLast?_eq_none_iff.1 hlast] at hmem
        cases hmem
      | some i =>
        rw [hlast] at htake
        cases htake
    · rw [St.holds, (hout v (Nat.le_of_not_lt hv)).2] at hmem
      cases hmem
  | injector =>
    have htake := h.stuck_take hout hstuck hn .injector
    simp only [take] at htake
    cases hinj : s.injector with
    | nil =>
      rw [St.holds, hinj] at hmem
      cases hmem
    | cons i rest =>
      rw [hinj] at htake
      cases htake
  | exec u => exact ⟨u, rfl⟩

/-- a job that waits for another is older: nobody waits for the youngest -/
theorem Inv.stuck_idle (h : Inv s place owner) (hn : 0 < n) (hout : Outside n s) (hstuck : Stuck n cap s) (u : ℕ) :
    s.worker u = ⟨.resume, []⟩ := by
  have hclimb : ∀ m u j ra k st, s.fresh - j = m → s.worker u ≠ ⟨.resume, .wait j ra k :: st⟩ := by
    intro m
    induction m using Nat.strong_induction_on with
    | _ m ih =>
      intro u j ra k st hm hw
      have hl : (s.job j).latch = false := by
        rcases h.stuck_worker hout hstuck u with hidle | ⟨j', ra', k', st', hw', hl⟩
        · rw [hw] at hidle
          cases hidle
        · rw [hw] at hw'
          cases hw'
          exact hl
      have hframe : (s.job j).latch = true ∨ place j ≠ none := h.frame_top hw
      rw [hl] at hframe
      have hsome : place j ≠ none := hframe.resolve_left Bool.false_ne_true
      obtain ⟨q, hq⟩ := Option.ne_none_iff_exists'.1 hsome
      obtain ⟨v, rfl⟩ := h.stuck_place hn hout hstuck hq
      obtain ⟨f, hf, hfj⟩ := List.mem_map.1 ((h.placed.mem (.exec v) j).2 hq)
      obtain ⟨hf, he⟩ := List.mem_filter.1 hf
      rcases h.stuck_worker hout hstuck v with hidle | ⟨j', ra', k', st', hv, -⟩
      · rw [hidle] at hf
        cases hf
      · have hlt : j' < s.fresh := h.frame_lt (w := v) (f := .wait j' ra' k') (by rw [hv]; exact List.mem_cons_self)
        have hrising := h.rising v
        rw [hv] at hf hrising
        rcases List.mem_cons.1 hf with rfl | hf
        · cases he
        · have hyoung : f.job < j' := hrising.1 rfl f hf
          exact ih (s.fresh - j') (by omega) v j' ra' k' st' rfl hv
  rcases h.stuck_worker hout hstuck u with hidle | ⟨j, ra, k, st, hw, -⟩
  · exact hidle
  · exact absurd hw (hclimb _ u j ra k st rfl)

/-- a pool that is stuck is done -/
theorem Inv.progress (h : Inv s place owner) (hn : 0 < n) (hout : Outside n s) (hstuck : Stuck n cap s) : owner j = none := by
  have hplace : ∀ i, place i = none := by
    intro i
    cases hq : place i with
    | none => rfl
    | some q =>
      obtain ⟨u, rfl⟩ := h.stuck_place hn hout hstuck hq
      have hmem := (h.placed.mem (.exec u) i).2 hq
      rw [St.holds, h.stuck_idle hn hout hstuck u] at hmem
      cases hmem
  cases ho : owner j with
  | none => rfl
  | some o =>
    have hmem := (h.owned.mem o j).2 ho
    cases o with
    | none =>
      have hl : (s.job j).latch = true := (h.waiting j hmem).resolve_right fun hne => hne (hplace j)
      have hnone := hstuck (.collect j) rfl
      rw [step, if_pos ⟨hmem, hl⟩] at hnone
      split at hnone <;> cases hnone
    | some u =>
      rw [St.owners, h.stuck_idle hn hout hstuck u] at hmem
      cases hmem

/-! ## Every schedule ends -/

/-- the greatest value of `f` on a list -/
def best {α : Type} (l : List α) (f : α → ℕ) : ℕ := (l.map f : Multiset ℕ).sup

theorem le_best {α : Type} {l : List α} (f : α → ℕ) {a : α} (h : a ∈ l) : f a ≤ best l f :=
  Multiset.le_sup (Multiset.mem_coe.2 (List.mem_map_of_mem h))

theorem best_le {α : Type} {l : List α} {f : α → ℕ} {m : ℕ} (h : ∀ a ∈ l, f a ≤ m) : best l f ≤ m := by
  refine Multiset.sup_le.2 fun b hb => ?_
  obtain ⟨a, ha, rfl⟩ := List.mem_map.1 (Multiset.mem_coe.1 hb)
  exact h a ha

/-- B's panic, when it passes the code after the join -/
def escapes : Except P V → Except P V → List (Except P V)
  | .ok _, .error p => [.error p]
  | _, _ => []

namespace Prog

def results : Prog P V → List (Except P V)
  | .done r => [r]
  | .join a b k => a.results.flatMap fun ra => b.results.flatMap fun rb => (k ra rb).results ++ escapes ra rb

/-- the steps of a program, its stolen closures included -/
def cost : Prog P V → ℕ
  | .done _ => 1
  | .join a b k => a.cost + b.cost + 11 + best a.results fun ra => best b.results fun rb => (k ra rb).cost

theorem mem_results {p : Prog P V} {r : Except P V} (h : Evals p r) : r ∈ p.results := by
  induction h with
  | done r => exact List.mem_singleton_self r
  | join ha hb hk iha ihb ihk =>
    exact List.mem_flatMap.2 ⟨_, iha, List.mem_flatMap.2 ⟨_, ihb, List.mem_append_left _ ihk⟩⟩
  | unwound ha hb iha ihb =>
    exact List.mem_flatMap.2 ⟨_, iha, List.mem_flatMap.2 ⟨_, ihb, List.mem_append_right _ List.mem_cons_self⟩⟩

end Prog

/-- the steps of a program and of what goes on with its result -/
def running (given : Except P V → ℕ) (p : Prog P V) : ℕ := p.cost + best p.results given

/-- the steps after B, whichever way it ends -/
def after (given : Except P V → ℕ) (b : Prog P V) (ra : Except P V) (k : Except P V → Except P V → Prog P V) : ℕ :=
  best b.results fun rb => max (running given (k ra rb)) (best (escapes ra rb) given)

/-- the steps of the frames, when the top one is given a result or goes on by itself -/
def rest (code : ℕ → Prog P V) : List (Frame P V) → Option (Except P V) → ℕ
  | .runA j k :: st, some ra => after (fun r => rest code st (some r)) (code j) ra k + 5
  | .loop j ra k :: st, none => after (fun r => rest code st (some r)) (code j) ra k + 4
  | .pop j ra k :: st, none => after (fun r => rest code st (some r)) (code j) ra k + 3
  | .wait j ra k :: st, none => after (fun r => rest code st (some r)) (code j) ra k + 2
  | .inlineB _ x k :: st, some (.ok y) => running (fun r => rest code st (some r)) (k (.ok x) (.ok y)) + 1
  | .inlineB _ _ _ :: st, some (.error p) => rest code st (some (.error p)) + 1
  | .capturedB _ p k :: st, some rb => running (fun r => rest code st (some r)) (k (.error p) rb) + 1
  | .exec _ :: st, some _ => rest code st none + 2
  | .finish _ :: st, none => rest code st none + 1
  | _, _ => 0

def weigh (code : ℕ → Prog P V) : Worker P V → ℕ
  | ⟨.run p, st⟩ => running (fun r => rest code st (some r)) p
  | ⟨.ret r, st⟩ => rest code st (some r)
  | ⟨.resume, st⟩ => rest code st none

/-- the steps of a job in a queue -/
def held (code : ℕ → Prog P V) (j : ℕ) : ℕ := (code j).cost + 5

def toDo (n : ℕ) (s : St P V) : ℕ :=
  ∑ w ∈ Finset.range n, weigh s.code (s.worker w) + ∑ w ∈ Finset.range n, ((s.deque w).map (held s.code)).sum +
    (s.injector.map (held s.code)).sum + s.ext.length

theorem running_le_after {given : Except P V → ℕ} {b : Prog P V} {ra rb : Except P V} {k : Except P V → Except P V → Prog P V}
    (hb : rb ∈ b.results) : running given (k ra rb) ≤ after given b ra k :=
  (le_max_left _ _).trans (le_best (fun rb => max (running given (k ra rb)) (best (escapes ra rb) given)) hb)

theorem escapes_le_after (given : Except P V → ℕ) {b : Prog P V} {ra rb r : Except P V} {k : Except P V → Except P V → Prog P V}
    (hb : rb ∈ b.results) (hr : r ∈ escapes ra rb) : given r ≤ after given b ra k :=
  (le_best given hr).trans ((le_max_right _ _).trans (le_best (fun rb => max (running given (k ra rb)) (best (escapes ra rb) given)) hb))

/-- the price of a join pays for both closures, the wait and what comes after -/
theorem fork_lt (given : Except P V → ℕ) (a b : Prog P V) (k : Except P V → Except P V → Prog P V) :
    running (fun ra => after given b ra k + 5) a + (b.cost + 5) < running given (.join a b k) := by
  have hafter : ∀ ra ∈ a.results, after given b ra k ≤
      (best a.results fun ra => best b.results fun rb => (k ra rb).cost) + best (Prog.join a b k).results given := by
    intro ra hra
    have hmem : ∀ rb ∈ b.results, ∀ r ∈ (k ra rb).results ++ escapes ra rb, r ∈ (Prog.join a b k).results :=
      fun rb hrb r hr => List.mem_flatMap.2 ⟨ra, hra, List.mem_flatMap.2 ⟨rb, hrb, hr⟩⟩
    refine best_le fun rb hrb => max_le ?_ ?_
    · refine Nat.add_le_add ?_ (best_le fun r hr => le_best given (hmem rb hrb r (List.mem_append_left _ hr)))
      exact (le_best (fun rb => (k ra rb).cost) hrb).trans (le_best (fun ra => best b.results fun rb => (k ra rb).cost) hra)
    · exact (best_le fun r hr => le_best given (hmem rb hrb r (List.mem_append_right _ hr))).trans (Nat.le_add_left _ _)
  have hbest : best a.results (fun ra => after given b ra k + 5) ≤
      (best a.results fun ra => best b.results fun rb => (k ra rb).cost) + best (Prog.join a b k).results given + 5 :=
    best_le fun ra hra => Nat.add_le_add_right (hafter ra hra) 5
  simp only [running, Prog.cost] at hbest ⊢
  omega

theorem rest_congr {code code' : ℕ → Prog P V} {st : List (Frame P V)} (hsame : ∀ f ∈ st, code' f.job = code f.job)
    (g : Option (Except P V)) : rest code' st g = rest code st g := by
  induction st generalizing g with
  | nil => cases g <;> rfl
  | cons f st ih =>
    have hrest : ∀ g, rest code' st g = rest code st g := fun g => ih (fun e he => hsame e (List.mem_cons_of_mem f he)) g
    have hf : code' f.job = code f.job := hsame f List.mem_cons_self
    cases f <;> simp only [Frame.job] at hf <;> rcases g with _ | (_ | _) <;> simp only [rest, hf, hrest]

theorem weigh_congr {code code' : ℕ → Prog P V} {t : Worker P V} (hsame : ∀ f ∈ t.stack, code' f.job = code f.job) :
    weigh code' t = weigh code t := by
  obtain ⟨c, st⟩ := t
  cases c <;> simp only [weigh, rest_congr hsame]

theorem sum_but {f g : ℕ → ℕ} {v : ℕ} (hv : v < n) (h : ∀ u, u ≠ v → f u = g u) :
    ∑ u ∈ Finset.range n, f u + g v = ∑ u ∈ Finset.range n, g u + f v := by
  have hmem := Finset.mem_range.2 hv
  have hrest : ∑ u ∈ (Finset.range n).erase v, f u = ∑ u ∈ (Finset.range n).erase v, g u :=
    Finset.sum_congr rfl fun u hu => h u (Finset.ne_of_mem_erase hu)
  rw [← Finset.add_sum_erase _ f hmem, ← Finset.add_sum_erase _ g hmem, hrest]
  omega

theorem toDo_setWorker (hw : w < n) (t : Worker P V) : toDo n (s.setWorker w t) + weigh s.code (s.worker w) = toDo n s + weigh s.code t := by
  have hsum := sum_but (f := fun u => weigh s.code ((s.setWorker w t).worker u)) (g := fun u => weigh s.code (s.worker u)) hw
    fun u hu => by rw [setWorker_other s hu]
  simp only [setWorker_self] at hsum
  unfold toDo
  simp only [St.setWorker] at hsum ⊢
  omega

theorem toDo_pulled {q : Place} (hp : Pulled s q j s') (hout : Outside n s) : toDo n s' + held s.code j = toDo n s := by
  have hsame : s'.code = s.code ∧ s'.worker = s.worker ∧ s'.ext = s.ext := by
    rw [hp.same]
    exact ⟨rfl, rfl, rfl⟩
  unfold toDo
  rw [hsame.1, hsame.2.1, hsame.2.2]
  cases q with
  | deque v =>
    have hperm : (s.deque v).Perm (j :: s'.deque v) := hp.out
    have hinj : s'.injector = s.injector := hp.rest .injector (fun heq => by cases heq)
    have hv : v < n := by
      by_contra hge
      rw [(hout v (Nat.le_of_not_lt hge)).2] at hperm
      exact List.cons_ne_nil _ _ hperm.nil_eq.symm
    have hsum := sum_but (f := fun u => ((s'.deque u).map (held s.code)).sum) (g := fun u => ((s.deque u).map (held s.code)).sum) hv
      fun u hu => by
        have hrest : s'.deque u = s.deque u := hp.rest (.deque u) fun heq => hu (Place.deque.inj heq)
        rw [hrest]
    have hone : ((s.deque v).map (held s.code)).sum = held s.code j + ((s'.deque v).map (held s.code)).sum := by
      rw [(hperm.map (held s.code)).sum_eq, List.map_cons, List.sum_cons]
    rw [hinj]
    omega
  | injector =>
    have hperm : s.injector.Perm (j :: s'.injector) := hp.out
    have hdeque : s'.deque = s.deque := funext fun u => hp.rest (.deque u) (fun heq => by cases heq)
    have hone : (s.injector.map (held s.code)).sum = held s.code j + (s'.injector.map (held s.code)).sum := by
      rw [(hperm.map (held s.code)).sum_eq, List.map_cons, List.sum_cons]
    rw [hdeque]
    omega
  | exec u => cases hp.queue

theorem Inv.toDo_alloc (h : Inv s place owner) (b : Prog P V) : toDo n (s.alloc b) = toDo n s := by
  have hheld : ∀ q, q.isQueue = true → (s.holds q).map (held (s.alloc b).code) = (s.holds q).map (held s.code) := by
    refine fun q _ => List.map_congr_left fun i hi => ?_
    have hlt : i ≠ s.fresh := fun heq => by
      have hsome := (h.placed.mem q i).1 hi
      rw [heq, h.fresh_place] at hsome
      cases hsome
    exact congrArg (fun p => Prog.cost p + 5) (Function.update_of_ne hlt _ _)
  have hweigh : ∀ u, weigh (s.alloc b).code (s.worker u) = weigh s.code (s.worker u) :=
    fun u => weigh_congr fun f hf => Function.update_of_ne (h.frame_lt hf).ne _ _
  have hdeque : ∀ u, (s.deque u).map (held (s.alloc b).code) = (s.deque u).map (held s.code) := fun u => hheld (.deque u) rfl
  have hinj : s.injector.map (held (s.alloc b).code) = s.injector.map (held s.code) := hheld .injector rfl
  calc toDo n (s.alloc b)
      = ∑ w ∈ Finset.range n, weigh (s.alloc b).code (s.worker w) + ∑ w ∈ Finset.range n, ((s.deque w).map (held (s.alloc b).code)).sum +
          (s.injector.map (held (s.alloc b).code)).sum + s.ext.length := rfl
    _ = toDo n s := by simp only [hweigh, hdeque, hinj, toDo]

theorem Inv.toDo_start (h : Inv s place owner) {q : Place} (hp : Pulled s q j s') (hout : Outside n s) (hw : w < n)
    (st : List (Frame P V)) : toDo n (s'.start w j st) + weigh s.code (s.worker w) + held s.code j =
      toDo n s + weigh s.code ⟨.run (s.code j), st⟩ := by
  have hpulled := toDo_pulled hp hout
  have hsame : s'.code = s.code ∧ s'.worker = s.worker := by
    rw [hp.same]
    exact ⟨rfl, rfl⟩
  have hset := toDo_setWorker (s := s'.setJob j ⟨none, none, false, true⟩) hw ⟨.run (s.code j), st⟩
  have hcode : (s'.setJob j ⟨none, none, false, true⟩).code = s.code := hsame.1
  have hworker : (s'.setJob j ⟨none, none, false, true⟩).worker = s.worker := hsame.2
  have htodo : toDo n (s'.setJob j ⟨none, none, false, true⟩) = toDo n s' := rfl
  rw [hcode, hworker, htodo] at hset
  rw [h.start_eq hp]
  omega

theorem toDo_lt (hw : w < n) {t t' : Worker P V} (hworker : s.worker w = t) (ht : weigh s.code t' < weigh s.code t) :
    toDo n (s.setWorker w t') < toDo n s := by
  have hset := toDo_setWorker (s := s) hw t'
  rw [hworker] at hset
  omega

theorem toDo_job_lt (hw : w < n) {b : Job P V} {t t' : Worker P V} (hworker : s.worker w = t) (ht : weigh s.code t' < weigh s.code t) :
    toDo n ((s.setJob j b).setWorker w t') < toDo n s :=
  toDo_lt (s := s.setJob j b) hw hworker ht

theorem Inv.toDo_fork (h : Inv s place owner) (hout : Outside n s) (hw : w < n) {a b : Prog P V}
    {k : Except P V → Except P V → Prog P V} {st : List (Frame P V)} (hworker : s.worker w = ⟨.run (.join a b k), st⟩) :
    toDo n (((s.alloc b).push cap w s.fresh busy).setWorker w ⟨.run a, .runA s.fresh k :: st⟩) < toDo n s := by
  obtain ⟨q, hp⟩ := pulled_push (s.alloc b) cap w s.fresh busy
  have hsame : ((s.alloc b).push cap w s.fresh busy).code = (s.alloc b).code ∧ ((s.alloc b).push cap w s.fresh busy).worker = s.worker := by
    rw [push_same]
    exact ⟨rfl, rfl⟩
  have hout' : Outside n ((s.alloc b).push cap w s.fresh busy) := by
    refine fun u hu => ⟨?_, ?_⟩
    · rw [hsame.2]
      exact (hout u hu).1
    · have hne : u ≠ w := by omega
      unfold St.push
      split_ifs
      · exact (Function.update_of_ne hne _ _).trans (hout u hu).2
      · exact (hout u hu).2
  have hbirth := toDo_pulled hp hout'
  have hset := toDo_setWorker (s := (s.alloc b).push cap w s.fresh busy) hw ⟨.run a, .runA s.fresh k :: st⟩
  have hold : weigh (s.alloc b).code (s.worker w) = weigh s.code (s.worker w) :=
    weigh_congr fun f hf => Function.update_of_ne (h.frame_lt hf).ne _ _
  have hcode : (s.alloc b).code s.fresh = b := Function.update_self _ _ _
  have hrest : ∀ g, rest (s.alloc b).code st g = rest s.code st g := by
    refine rest_congr fun f hf => Function.update_of_ne (h.frame_lt (w := w) ?_).ne _ _
    rw [hworker]
    exact hf
  have hnew : weigh (s.alloc b).code ⟨.run a, .runA s.fresh k :: st⟩ =
      running (fun ra => after (fun r => rest s.code st (some r)) b ra k + 5) a := by
    simp only [weigh, rest, hcode, hrest]
  have hlt : running (fun ra => after (fun r => rest s.code st (some r)) b ra k + 5) a + (b.cost + 5) < weigh s.code (s.worker w) := by
    rw [hworker]
    exact fork_lt _ a b k
  rw [hsame.1, hsame.2, hold, hnew] at hset
  rw [hsame.1, held, hcode, h.toDo_alloc] at hbirth
  omega

/-- a job taken back: its own price and the frame's pay for the rest -/
theorem Inv.toDo_takeBack (h : Inv s place owner) (hout : Outside n s) (hw : w < n) {ra : Except P V}
    {k : Except P V → Except P V → Prog P V} {e : Frame P V} {st : List (Frame P V)} (hworker : s.worker w = ⟨.resume, .pop j ra k :: st⟩)
    (hp : Pulled s (.deque w) j s')
    (he : ∀ rb ∈ (s.code j).results, rest s.code (e :: st) (some rb) ≤ after (fun r => rest s.code st (some r)) (s.code j) ra k + 1) :
    toDo n (s'.start w j (e :: st)) < toDo n s := by
  have hstart := h.toDo_start hp hout hw (e :: st)
  have hnew : weigh s.code ⟨.run (s.code j), e :: st⟩ ≤ (s.code j).cost + (after (fun r => rest s.code st (some r)) (s.code j) ra k + 1) :=
    Nat.add_le_add_left (best_le he) _
  have hold : weigh s.code (s.worker w) = after (fun r => rest s.code st (some r)) (s.code j) ra k + 3 := by
    rw [hworker]
    rfl
  rw [hold, held] at hstart
  omega

theorem Inv.move_lt (h : Inv s place owner) (hout : Outside n s) (hw : w < n) (hm : Move cap s w s') : toDo n s' < toDo n s := by
  cases hm with
  | @done r st hworker =>
    have hr := le_best (fun r => rest s.code st (some r)) (List.mem_singleton_self r)
    refine toDo_lt hw hworker ?_
    simp only [weigh, running, Prog.cost, Prog.results]
    omega
  | fork hworker => exact h.toDo_fork hout hw hworker
  | endA hworker => exact toDo_lt hw hworker (Nat.lt_succ_self _)
  | endB hworker => exact toDo_job_lt hw hworker (Nat.lt_succ_self _)
  | unwind hworker => exact toDo_job_lt hw hworker (Nat.lt_succ_self _)
  | captured hworker => exact toDo_job_lt hw hworker (Nat.lt_succ_self _)
  | write hworker => exact toDo_job_lt hw hworker (Nat.lt_succ_self _)
  | latch hworker => exact toDo_job_lt hw hworker (Nat.lt_succ_self _)
  | @settle e j ra rb k st hworker he hl hb =>
    have hle : running (fun r => rest s.code st (some r)) (k ra rb) ≤ after (fun r => rest s.code st (some r)) (s.code j) ra k :=
      running_le_after (Prog.mem_results hb)
    refine toDo_job_lt hw hworker (hle.trans_lt ?_)
    rcases he with rfl | rfl <;> exact Nat.lt_add_of_pos_right (by decide)
  | unset hworker => exact toDo_lt hw hworker (Nat.lt_succ_self _)
  | drained hworker => exact toDo_lt hw hworker (Nat.lt_succ_self _)
  | @inline j x k st s₁ hworker hp =>
    refine h.toDo_takeBack hout hw hworker hp fun rb hrb => ?_
    cases rb with
    | ok y => exact Nat.add_le_add_right (running_le_after hrb) 1
    | error p =>
      have hmem : Except.error p ∈ escapes (.ok x) (Except.error p) := List.mem_cons_self
      have hle : rest s.code st (some (.error p)) ≤ after (fun r => rest s.code st (some r)) (s.code j) (.ok x) k :=
        escapes_le_after (fun r => rest s.code st (some r)) hrb hmem
      exact Nat.add_le_add_right hle 1
  | capture hworker hp =>
    exact h.toDo_takeBack hout hw hworker hp fun rb hrb => Nat.add_le_add_right (running_le_after hrb) 1
  | @other i j ra k st hworker hlast =>
    have hstart := h.toDo_start (pulled_last hlast) hout hw (.exec i :: .loop j ra k :: st)
    have hnew : weigh s.code ⟨.run (s.code i), .exec i :: .loop j ra k :: st⟩ ≤
        (s.code i).cost + (after (fun r => rest s.code st (some r)) (s.code j) ra k + 4 + 2) :=
      Nat.add_le_add_left (best_le fun r _ => le_rfl) _
    have hold : weigh s.code (s.worker w) = after (fun r => rest s.code st (some r)) (s.code j) ra k + 3 := by
      rw [hworker]
      rfl
    rw [hold, held] at hstart
    omega

theorem Inv.step_lt (h : Inv s place owner) (hout : Outside n s) {a : Act P V} (ha : submitted [a] = []) (hs : step n cap s a = some s') :
    toDo n s' < toDo n s := by
  cases a with
  | work w busy =>
    obtain ⟨hw, hwork⟩ := work_cases hs
    exact h.move_lt hout hw (h.work_move hwork)
  | find w src =>
    obtain ⟨hw, hlooks, i, q, s₁, hp, rfl⟩ := find_cases hs
    have hstart := h.toDo_start hp hout hw (.exec i :: (s.worker w).stack)
    have hnew : weigh s.code ⟨.run (s.code i), .exec i :: (s.worker w).stack⟩ ≤ (s.code i).cost + (rest s.code (s.worker w).stack none + 2) :=
      Nat.add_le_add_left (best_le fun r _ => le_rfl) _
    have hold : weigh s.code (s.worker w) = rest s.code (s.worker w).stack none := by
      rw [Worker.looks_iff hlooks]
      rfl
    rw [hold, held] at hstart
    omega
  | submit p => cases ha
  | collect j =>
    obtain ⟨hj, -, r, -, rfl⟩ := h.collect_cases hs
    have hlen : (s.ext.erase j).length + 1 = s.ext.length := List.length_erase_add_one hj
    unfold toDo
    simp only [St.setJob]
    omega

/-! ## The pool as a whole -/

/-- **Joins are sound**: in every schedule, with any number of threads, any deque capacity and any early spill, no thread touches the
memory of a frame that is gone, takes a closure twice or misses a result. A job that is referred to from a queue is there with its closure. The
calls from outside wait or are answered once each, by a result of their programs; when these use `join_on` alone, by the result of
running them on one thread. -/
theorem join_sound [Inhabited V] {acts : List (Act P V)} (hrun : run n cap init acts = some s) :
    s.fault = false ∧ (∀ j, (∃ v, j ∈ s.deque v) ∨ j ∈ s.injector → s.job j = ⟨some (s.code j), none, false, true⟩) ∧
      s.calls.Perm (submitted acts) ∧
      ∀ x ∈ s.outcomes, Evals (s.code x.1) x.2 ∧ ((s.code x.1).Plain → x.2 = (s.code x.1).eval) := by
  obtain ⟨place, owner, h⟩ := run_inv hrun
  refine ⟨h.sound, fun j hj => ?_, run_calls ⟨_, _, init_inv⟩ hrun, fun x hx => ?_⟩
  · rcases hj with ⟨v, hv⟩ | hv
    · exact (h.jobs j).queued (.deque v) ((h.placed.mem (.deque v) j).1 hv) rfl
    · exact (h.jobs j).queued .injector ((h.placed.mem .injector j).1 hv) rfl
  · have hevals := (h.answers x hx).2
    exact ⟨hevals, fun hplain => hplain.unique hevals⟩

/-- worker 1 steals the second closure while worker 0 runs the first -/
def stolen : List (Act ℕ ℕ) :=
  [.submit (.joinOn (.done (.ok 1)) (.done (.ok 2)) fun x y => .done (.ok (x + y))), .find 0 .injector, .work 0 false,
      .find 1 (.steal 0)] ++
    [0, 0, 0, 0, 1, 1, 1, 0, 0, 0, 0].map fun w => .work w false

theorem join_sound_three : ∃ s, run 2 1 init (stolen ++ [.collect 0]) = some s ∧ s.outcomes = [(0, .ok 3)] ∧ s.fault = false := by
  have hout : (run 2 1 init (stolen ++ [.collect 0])).map St.outcomes = some [(0, .ok 3)] := rfl
  obtain ⟨s, hs, hout⟩ := Option.map_eq_some_iff.1 hout
  exact ⟨s, hs, hout, (join_sound hs).1⟩

theorem run_ready [Inhabited V] {acts : List (Act P V)} (hrun : run n cap init acts = some s) :
    (∃ place owner, Inv s place owner) ∧ Outside n s := by
  refine Machine.run_keeps (P := fun s => (∃ place owner, Inv s place owner) ∧ Outside n s) (fun _ h hs => ?_) ?_ hrun
  · obtain ⟨⟨place, owner, hinv⟩, hout⟩ := h
    exact ⟨step_inv ⟨place, owner, hinv⟩ hs, step_outside hinv hout hs⟩
  · exact ⟨⟨_, _, init_inv⟩, fun u _ => ⟨rfl, rfl⟩⟩

/-- **Joins come to an end**: from every state that can be reached, every schedule without new calls takes at most `toDo` steps, and
one that cannot go on has answered every call and left nothing behind. -/
theorem join_completes [Inhabited V] {acts more : List (Act P V)} (hn : 0 < n) (hrun : run n cap init acts = some s)
    (hmore : submitted more = []) (hrest : run n cap s more = some s') :
    more.length ≤ toDo n s ∧
      (Stuck n cap s' → (s'.outcomes.map fun x => s'.code x.1).Perm (submitted acts) ∧ (∀ u, s'.worker u = ⟨.resume, []⟩) ∧
        (∀ u, s'.deque u = []) ∧ s'.injector = [] ∧ ∀ j, s'.job j = .gone) := by
  have hquiet : ∀ a ∈ more, submitted [a] = [] := by
    intro a ha
    unfold submitted at hmore ⊢
    rw [List.filterMap_eq_nil_iff] at hmore ⊢
    intro b hb
    cases List.mem_singleton.1 hb
    exact hmore a ha
  obtain ⟨⟨⟨place, owner, h⟩, hout⟩, hlen⟩ := Machine.run_descends (f := toDo n)
    (P := fun s => (∃ place owner, Inv s place owner) ∧ Outside n s) (fun ha hP hs => by
      obtain ⟨⟨place, owner, hinv⟩, hout⟩ := hP
      exact ⟨⟨step_inv ⟨place, owner, hinv⟩ hs, step_outside hinv hout hs⟩, hinv.step_lt hout (hquiet _ ha) hs⟩) (run_ready hrun) hrest
  refine ⟨by omega, fun hstuck => ?_⟩
  have howner : ∀ j, owner j = none := fun j => h.progress hn hout hstuck
  have hplace : ∀ j, place j = none := fun j => ((h.jobs j).gone (howner j)).1
  have hempty : ∀ q, s'.holds q = [] := by
    refine fun q => List.eq_nil_iff_forall_not_mem.2 fun j hj => ?_
    rw [h.placed.mem, hplace] at hj
    cases hj
  have hext : s'.ext = [] := by
    refine List.eq_nil_iff_forall_not_mem.2 fun j hj => ?_
    have hsome := (h.owned.mem none j).1 hj
    rw [howner] at hsome
    cases hsome
  refine ⟨?_, h.stuck_idle hn hout hstuck, fun u => hempty (.deque u), hempty .injector, fun j => ((h.jobs j).gone (howner j)).2⟩
  have hall : run n cap init (acts ++ more) = some s' := by
    rw [run, List.foldlM_append]
    exact Option.bind_eq_some_iff.2 ⟨s, hrun, hrest⟩
  have hcalls := run_calls ⟨_, _, init_inv⟩ hall
  have hsub : submitted (acts ++ more) = submitted acts := by
    rw [submitted, List.filterMap_append]
    exact (congrArg _ hmore).trans (List.append_nil _)
  rw [St.calls, hext, List.nil_append, List.map_map, hsub] at hcalls
  exact hcalls

theorem join_completes_one : ∃ s s', run 2 1 init stolen = some s ∧ run 2 1 s [.collect 0] = some s' ∧ 1 ≤ toDo 2 s ∧
    s'.outcomes = [(0, .ok 3)] := by
  have hout : (run 2 1 init stolen).bind (fun s => (run 2 1 s [.collect 0]).map St.outcomes) = some [(0, .ok 3)] := rfl
  obtain ⟨s, hs, hout⟩ := Option.bind_eq_some_iff.1 hout
  obtain ⟨s', hs', hout⟩ := Option.map_eq_some_iff.1 hout
  exact ⟨s, s', hs, hs', (join_completes (by decide) hs rfl hs').1, hout⟩

end Runs

end YouPipe.Join
