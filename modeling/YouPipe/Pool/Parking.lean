/-
Parking leases (`Registry::try_reserve_parking` and `release_parking` in `pool/registry.rs`, `ParkingLease` in
`builder/typed/stream.rs`): the pool's count of slots for jobs that may park on a channel.

A run asks once, for a bound on its parking jobs. The load and the compare-exchange of the reservation are steps of their
own, and the exchange may fail spuriously. A granted lease wraps jobs, each of which gives its slot back when it returns or
unwinds; the lease gives back what it never wrapped when it is dropped, which may be before its jobs finish. A wrapped job
is queued until a worker starts it, and a worker may host several jobs, one on top of the other.

`underflow` records a release of more slots than are taken.

Result: `parking_conservation`, for every number of runs and every order of their steps.
-/
import Mathlib.Tactic
import YouPipe.Core.Machine
import YouPipe.Core.Tally
import YouPipe.Core.Word
import YouPipe.Pool.Counters

namespace YouPipe.Parking

open YouPipe.Word YouPipe.Tally YouPipe.Pool

/-! ## Model -/

/-- `ParkingLease` -/
structure Lease where
  reserved : ℕ
  spawned : ℕ
deriving DecidableEq, Repr

/-- a run's reservation (at the load, at the capacity test or the exchange with the value in hand) and what became of it -/
inductive Pc where
  | idle
  | load (n : ℕ)
  | test (n used : ℕ)
  | exchange (n used : ℕ)
  | refused
  | leased (l : Lease)
  | dropped
deriving DecidableEq, Repr

/-- a wrapped job -/
inductive Job where
  | queued
  | running (worker : ℕ)
  | finished
deriving DecidableEq, Repr

structure Run where
  pc : Pc
  jobs : List Job
deriving DecidableEq, Repr

def Run.setJob (x : Run) (j : ℕ) (job : Job) : Run := ⟨x.pc, x.jobs.set j job⟩

/-- how a wrapped job ends: its drop guard runs either way -/
inductive Exit where
  | returned
  | unwound
deriving DecidableEq, Repr

structure St (R : Type) where
  slots : ℕ
  underflow : Bool
  runs : R → Run

inductive Act (R : Type) where
  /-- the admission test in front of `try_reserve_parking` -/
  | ask (r : R) (need : ℕ)
  | load (r : R)
  | test (r : R)
  | exchange (r : R) (spurious : Bool)
  | wrap (r : R)
  | start (r : R) (job worker : ℕ)
  | finish (r : R) (job : ℕ) (how : Exit)
  | drop (r : R)
deriving DecidableEq, Repr

def init (R : Type) : St R := ⟨0, false, fun _ => ⟨.idle, []⟩⟩

variable {R : Type} [DecidableEq R]

def St.setRun (s : St R) (r : R) (x : Run) : St R := { s with runs := Function.update s.runs r x }

def St.setPc (s : St R) (r : R) (pc : Pc) : St R := s.setRun r ⟨pc, (s.runs r).jobs⟩

/-- `release_parking` -/
def St.release (s : St R) (n : ℕ) : St R :=
  if 0 < n then { s with slots := wrappingSub s.slots n, underflow := s.underflow || decide (s.slots < n) } else s

/-- one step on a pool of `cap` threads -/
def step (cap : ℕ) (s : St R) : Act R → Option (St R)
  | .ask r need =>
    if (s.runs r).pc = .idle then some (s.setPc r (if need ≤ cap then .load need else .refused)) else none
  | .load r =>
    match (s.runs r).pc with
    | .load n => some (s.setPc r (.test n s.slots))
    | _ => none
  | .test r =>
    match (s.runs r).pc with
    | .test n used => some (s.setPc r (if cap < wrappingAdd used n then .refused else .exchange n used))
    | _ => none
  | .exchange r spurious =>
    match (s.runs r).pc with
    | .exchange n used =>
      if s.slots = used ∧ spurious = false then
        some { s.setPc r (.leased ⟨n, 0⟩) with slots := wrappingAdd used n }
      else some (s.setPc r (.test n s.slots))
    | _ => none
  | .wrap r =>
    match (s.runs r).pc with
    | .leased l =>
      -- callers wrap at most the jobs they reserved for
      if l.spawned < l.reserved then
        some (s.setRun r ⟨.leased { l with spawned := l.spawned + 1 }, (s.runs r).jobs ++ [.queued]⟩)
      else none
    | _ => none
  | .start r j w =>
    if (s.runs r).jobs[j]? = some .queued ∧ w < cap then
      some (s.setRun r ((s.runs r).setJob j (.running w)))
    else none
  | .finish r j _ =>
    match (s.runs r).jobs[j]? with
    | some (.running _) => some ((s.setRun r ((s.runs r).setJob j .finished)).release 1)
    | _ => none
  | .drop r =>
    match (s.runs r).pc with
    | .leased l => some ((s.setPc r .dropped).release (wrappingSub l.reserved l.spawned))
    | _ => none

def run (cap : ℕ) (s : St R) (acts : List (Act R)) : Option (St R) := acts.foldlM (step cap) s

/-! ## What a run accounts for -/

/-- slots of an undropped lease that no job took over -/
def Run.remainder (x : Run) : ℕ :=
  match x.pc with
  | .leased l => l.reserved - l.spawned
  | _ => 0

def Job.unfinished : Job → Bool
  | .finished => false
  | _ => true

/-- the worker a job runs on -/
def Job.host : Job → Option ℕ
  | .running w => some w
  | _ => none

def Run.unfinished (x : Run) : ℕ := x.jobs.countP Job.unfinished

def Run.share (x : Run) : ℕ := x.remainder + x.unfinished

def Run.hosts (x : Run) : List ℕ := x.jobs.filterMap Job.host

/-- the run an action of a reservation belongs to -/
def Act.attempt : Act R → Option R
  | .ask r _ | .load r | .test r | .exchange r _ => some r
  | _ => none

theorem remainder_of_leased {x : Run} {l : Lease} (h : x.pc = .leased l) : x.remainder = l.reserved - l.spawned := by
  simp only [Run.remainder, h]

theorem remainder_eq_zero {x : Run} (h : ∀ l, x.pc ≠ .leased l) : x.remainder = 0 := by
  unfold Run.remainder
  split
  · next l hl => exact absurd hl (h l)
  · rfl

theorem unfinished_snoc (x : Run) (pc : Pc) : Run.unfinished ⟨pc, x.jobs ++ [.queued]⟩ = x.unfinished + 1 := by
  simp [Run.unfinished, Job.unfinished]

/-- replacing a job changes the number of unfinished ones by the job's own difference -/
theorem countP_set {l : List Job} {i : ℕ} {old : Job} (h : l[i]? = some old) (new : Job) (p : Job → Bool) :
    (l.set i new).countP p + (p old).toNat = l.countP p + (p new).toNat := by
  induction l generalizing i with
  | nil => simp at h
  | cons j l ih =>
    cases i with
    | zero =>
      simp only [List.getElem?_cons_zero, Option.some.injEq] at h
      subst h
      simp only [List.set_cons_zero, List.countP_cons]
      cases p j <;> cases p new <;> simp
    | succ i =>
      have := ih (by simpa using h)
      simp only [List.set_cons_succ, List.countP_cons]
      omega

/-- a job that runs is unfinished, and a queued one is unfinished and has no host -/
theorem hosts_length_add (x : Run) : x.hosts.length + x.jobs.countP (· = .queued) = x.unfinished := by
  unfold Run.hosts Run.unfinished
  induction x.jobs with
  | nil => rfl
  | cons j l ih => cases j <;> simp [List.filterMap_cons, List.countP_cons, Job.host, Job.unfinished] <;> omega

/-! ## Invariant -/

/-- what a run's place says about the numbers it carries -/
def Run.Ok (cap : ℕ) (x : Run) : Prop :=
  match x.pc with
  | .idle => x.jobs.length = 0
  | .load n => n ≤ cap ∧ x.jobs.length = 0
  | .test n used => n ≤ cap ∧ used ≤ cap ∧ x.jobs.length = 0
  | .exchange n used => used + n ≤ cap ∧ x.jobs.length = 0
  | .leased l => l.spawned ≤ l.reserved ∧ l.spawned = x.jobs.length
  | _ => True

structure Inv [Fintype R] (cap : ℕ) (s : St R) : Prop where
  total : ∑ r, (s.runs r).share = s.slots
  bound : s.slots ≤ cap
  sound : s.underflow = false
  ok : ∀ r, (s.runs r).Ok cap

section Steps

variable [Fintype R] {cap : ℕ} {s s' : St R}

omit [DecidableEq R] in
theorem init_inv (cap : ℕ) : Inv cap (init R) :=
  ⟨by simp [init, Run.share, Run.remainder, Run.unfinished], Nat.zero_le _, rfl, fun _ => rfl⟩

omit [DecidableEq R] in
theorem Inv.share_le (h : Inv cap s) (r : R) : (s.runs r).share ≤ s.slots :=
  h.total ▸ Finset.single_le_sum (f := fun r => (s.runs r).share) (fun _ _ => Nat.zero_le _) (Finset.mem_univ r)

/-- one run and the counter move together -/
theorem Inv.change (h : Inv cap s) {r : R} {x : Run} {slots : ℕ} (hok : x.Ok cap)
    (hbal : slots + (s.runs r).share = s.slots + x.share) (hle : slots ≤ cap) :
    Inv cap ⟨slots, false, Function.update s.runs r x⟩ where
  total := by
    have hcomp : (fun i => (Function.update s.runs r x i).share)
        = Function.update (fun i => (s.runs i).share) r x.share := by
      funext i
      exact Function.apply_update (fun _ y => y.share) s.runs r x i
    have hsum := sum_update_add (Finset.mem_univ r) (fun i => (s.runs i).share) x.share
    rw [← hcomp, h.total, ← hbal] at hsum
    exact Nat.add_right_cancel hsum
  bound := hle
  sound := rfl
  ok := by
    intro i
    rcases eq_or_ne i r with rfl | hne
    · simpa using hok
    · simpa [hne] using h.ok i

/-- a step of a reservation that takes no slot -/
theorem Inv.setPc (h : Inv cap s) {r : R} {pc : Pc} (hok : Run.Ok cap ⟨pc, (s.runs r).jobs⟩)
    (hold : (s.runs r).remainder = 0) (hnew : ∀ l, pc ≠ .leased l) : Inv cap (s.setPc r pc) := by
  have hbal : s.slots + (s.runs r).share = s.slots + Run.share ⟨pc, (s.runs r).jobs⟩ := by
    simp only [Run.share, hold, remainder_eq_zero (x := ⟨pc, _⟩) hnew, Run.unfinished]
  have := h.change hok hbal h.bound
  rwa [← h.sound] at this

omit [DecidableEq R] [Fintype R] in
theorem release_eq {n : ℕ} (hn : n ≤ s.slots) (hs : s.slots < word) (hu : s.underflow = false) :
    s.release n = ⟨s.slots - n, false, s.runs⟩ := by
  unfold St.release
  split_ifs with h
  · have hsub : wrappingSub s.slots n = s.slots - n := by
      unfold wrappingSub
      rw [show s.slots + word - n = s.slots - n + word by omega, Nat.add_mod_right, Nat.mod_eq_of_lt (by omega)]
    simp only [hsub, hu, Bool.false_or, decide_eq_false (Nat.not_lt.2 hn)]
  · rw [show s.slots - n = s.slots by omega, ← hu]

/-! ### Steps that move slots -/

theorem Inv.grant (h : Inv cap s) {r : R} {n : ℕ} (hrem : (s.runs r).remainder = 0) (hfit : s.slots + n ≤ cap)
    (hjobs : (s.runs r).jobs.length = 0) :
    Inv cap ⟨s.slots + n, false, Function.update s.runs r ⟨.leased ⟨n, 0⟩, (s.runs r).jobs⟩⟩ := by
  apply h.change
  · exact ⟨Nat.zero_le _, hjobs.symm⟩
  · simp only [Run.share, hrem, remainder_of_leased (x := ⟨.leased ⟨n, 0⟩, (s.runs r).jobs⟩) rfl, Run.unfinished]
    omega
  · exact hfit

theorem Inv.wrap (h : Inv cap s) {r : R} {l : Lease} (hpc : (s.runs r).pc = .leased l) (hl : l.spawned < l.reserved) :
    Inv cap (s.setRun r ⟨.leased { l with spawned := l.spawned + 1 }, (s.runs r).jobs ++ [.queued]⟩) := by
  have hok := h.ok r
  simp only [Run.Ok, hpc] at hok
  have hbal : s.slots + (s.runs r).share
      = s.slots + Run.share ⟨.leased { l with spawned := l.spawned + 1 }, (s.runs r).jobs ++ [.queued]⟩ := by
    rw [Run.share, Run.share, unfinished_snoc, remainder_of_leased hpc, remainder_of_leased rfl]
    show s.slots + (l.reserved - l.spawned + _) = s.slots + (l.reserved - (l.spawned + 1) + _)
    omega
  have := h.change (x := ⟨.leased { l with spawned := l.spawned + 1 }, (s.runs r).jobs ++ [.queued]⟩)
    ⟨hl, by simp [hok.2]⟩ hbal h.bound
  rwa [← h.sound] at this

/-- replacing a job that stays unfinished, or gives its slot back -/
theorem Inv.setJob (h : Inv cap s) {r : R} {j : ℕ} {old new : Job} (hj : (s.runs r).jobs[j]? = some old) {slots : ℕ}
    (hslots : slots + old.unfinished.toNat = s.slots + new.unfinished.toNat) (hle : slots ≤ cap) :
    Inv cap ⟨slots, false, Function.update s.runs r ((s.runs r).setJob j new)⟩ := by
  apply h.change
  · simpa only [Run.Ok, Run.setJob, List.length_set] using h.ok r
  · have hcount := countP_set hj new Job.unfinished
    have hrem : ((s.runs r).setJob j new).remainder = (s.runs r).remainder := rfl
    rw [Run.share, Run.share, hrem, Run.unfinished, Run.unfinished]
    show slots + _ = s.slots + ((s.runs r).remainder + ((s.runs r).jobs.set j new).countP Job.unfinished)
    omega
  · exact hle

theorem Inv.finish (hcap : cap < word) (h : Inv cap s) {r : R} {j w : ℕ} (hj : (s.runs r).jobs[j]? = some (.running w)) :
    Inv cap ((s.setRun r ((s.runs r).setJob j .finished)).release 1) := by
  have hpos : 1 ≤ s.slots := by
    have hcount := countP_set hj .finished Job.unfinished
    have hshare := h.share_le r
    simp only [Job.unfinished, Bool.toNat_true, Bool.toNat_false] at hcount
    rw [Run.share, Run.unfinished] at hshare
    omega
  have hbound := h.bound
  rw [release_eq (s := s.setRun r ((s.runs r).setJob j .finished)) hpos (Nat.lt_of_le_of_lt hbound hcap) h.sound]
  refine h.setJob hj ?_ (show s.slots - 1 ≤ cap by omega)
  show s.slots - 1 + 1 = s.slots + 0
  omega

theorem Inv.drop (hcap : cap < word) (h : Inv cap s) {r : R} {l : Lease} (hpc : (s.runs r).pc = .leased l) :
    Inv cap ((s.setPc r .dropped).release (wrappingSub l.reserved l.spawned)) := by
  have hok := h.ok r
  simp only [Run.Ok, hpc] at hok
  have hshare := h.share_le r
  rw [Run.share, remainder_of_leased hpc] at hshare
  have hbound := h.bound
  have hsub : wrappingSub l.reserved l.spawned = l.reserved - l.spawned := by
    unfold wrappingSub
    rw [show l.reserved + word - l.spawned = l.reserved - l.spawned + word by omega, Nat.add_mod_right,
      Nat.mod_eq_of_lt (by omega)]
  rw [hsub, release_eq (s := s.setPc r .dropped) (show l.reserved - l.spawned ≤ s.slots by omega)
    (Nat.lt_of_le_of_lt hbound hcap) h.sound]
  refine h.change (x := ⟨.dropped, (s.runs r).jobs⟩) trivial ?_ (show s.slots - _ ≤ cap by omega)
  have hshare' : Run.share ⟨.dropped, (s.runs r).jobs⟩ = (s.runs r).unfinished := Nat.zero_add _
  show s.slots - (l.reserved - l.spawned) + _ = _
  rw [hshare', Run.share, remainder_of_leased hpc]
  omega

/-- **one step keeps the books**: a grant adds its request, a wrapped job and a dropped lease give back what they hold -/
theorem step_inv (hcap : 2 * cap < word) {a : Act R} (h : Inv cap s) (hs : step cap s a = some s') : Inv cap s' := by
  cases a with
  | ask r need =>
    simp only [step] at hs
    split_ifs at hs with hpc hn
    all_goals
      cases hs
      have hok := h.ok r
      simp only [Run.Ok, hpc] at hok
    · exact h.setPc ⟨hn, hok⟩ (by simp [Run.remainder, hpc]) (by simp)
    · exact h.setPc trivial (by simp [Run.remainder, hpc]) (by simp)
  | load r =>
    simp only [step] at hs
    split at hs
    · next n hpc =>
      cases hs
      have hok := h.ok r
      simp only [Run.Ok, hpc] at hok
      exact h.setPc ⟨hok.1, h.bound, hok.2⟩ (by simp [Run.remainder, hpc]) (by simp)
    · cases hs
  | test r =>
    simp only [step] at hs
    split at hs
    · next n used hpc =>
      have hok := h.ok r
      simp only [Run.Ok, hpc] at hok
      rw [wrappingAdd_of_lt (by omega)] at hs
      split_ifs at hs with hn
      all_goals cases hs
      · exact h.setPc trivial (by simp [Run.remainder, hpc]) (by simp)
      · exact h.setPc ⟨Nat.not_lt.1 hn, hok.2.2⟩ (by simp [Run.remainder, hpc]) (by simp)
    · cases hs
  | exchange r spurious =>
    simp only [step] at hs
    split at hs
    · next n used hpc =>
      have hok := h.ok r
      simp only [Run.Ok, hpc] at hok
      have hrem : (s.runs r).remainder = 0 := by simp [Run.remainder, hpc]
      split_ifs at hs with hx
      · cases hs
        rw [wrappingAdd_of_lt (by omega), ← hx.1]
        have := h.grant hrem (hx.1 ▸ hok.1) hok.2
        rwa [← h.sound] at this
      · cases hs
        exact h.setPc ⟨by omega, h.bound, hok.2⟩ hrem (by simp)
    · cases hs
  | wrap r =>
    simp only [step] at hs
    split at hs
    · next l hpc =>
      split_ifs at hs with hl
      cases hs
      exact h.wrap hpc hl
    · cases hs
  | start r j w =>
    simp only [step] at hs
    split_ifs at hs with hj
    cases hs
    have hset : Inv cap ⟨s.slots, false, Function.update s.runs r ((s.runs r).setJob j (.running w))⟩ :=
      h.setJob hj.1 rfl h.bound
    rwa [← h.sound] at hset
  | finish r j how =>
    simp only [step] at hs
    split at hs
    · next w hj =>
      exact Option.some.inj hs ▸ h.finish (by omega) hj
    · cases hs
  | drop r =>
    simp only [step] at hs
    split at hs
    · next l hpc =>
      exact Option.some.inj hs ▸ h.drop (by omega) hpc
    · cases hs

theorem run_inv (hcap : 2 * cap < word) {acts : List (Act R)} (h : Inv cap s) (hr : run cap s acts = some s') :
    Inv cap s' :=
  Machine.run_keeps (fun _ h hs => step_inv hcap h hs) h hr

/-! ## Consequences -/

omit [DecidableEq R] in
/-- with a job queued, the workers that host a job are fewer than the slots taken -/
theorem Inv.free_worker (h : Inv cap s) {r : R} (hq : .queued ∈ (s.runs r).jobs) :
    ∃ w < cap, ∀ r', .running w ∉ (s.runs r').jobs := by
  by_contra hall
  push Not at hall
  have hsub : Finset.range cap ⊆ Finset.univ.biUnion fun r' => (s.runs r').hosts.toFinset := by
    intro w hw
    obtain ⟨r', hr'⟩ := hall w (Finset.mem_range.1 hw)
    refine Finset.mem_biUnion.2 ⟨r', Finset.mem_univ _, List.mem_toFinset.2 ?_⟩
    exact List.mem_filterMap.2 ⟨_, hr', rfl⟩
  have hle : ∀ r', (s.runs r').hosts.length ≤ (s.runs r').unfinished := fun r' =>
    hosts_length_add (s.runs r') ▸ Nat.le_add_right _ _
  have hlt : (s.runs r).hosts.length < (s.runs r).unfinished := by
    have hpos : 0 < (s.runs r).jobs.countP (· = .queued) := List.countP_pos_iff.2 ⟨_, hq, by simp⟩
    have := hosts_length_add (s.runs r)
    omega
  have hcount : cap < cap :=
    calc cap = (Finset.range cap).card := (Finset.card_range cap).symm
      _ ≤ (Finset.univ.biUnion fun r' => (s.runs r').hosts.toFinset).card := Finset.card_le_card hsub
      _ ≤ ∑ r', (s.runs r').hosts.toFinset.card := Finset.card_biUnion_le
      _ ≤ ∑ r', (s.runs r').hosts.length := Finset.sum_le_sum fun r' _ => List.toFinset_card_le _
      _ < ∑ r', (s.runs r').unfinished := Finset.sum_lt_sum (fun r' _ => hle r') ⟨r, Finset.mem_univ _, hlt⟩
      _ ≤ ∑ r', (s.runs r').share := Finset.sum_le_sum fun r' _ => Nat.le_add_left _ _
      _ = s.slots := h.total
      _ ≤ cap := h.bound
  exact lt_irrefl _ hcount

omit [Fintype R] in
/-- a step of a reservation that does not grant leaves the counter alone -/
theorem attempt_slots {a : Act R} {r : R} (ha : a.attempt = some r) (hs : step cap s a = some s')
    (hno : ∀ l, (s'.runs r).pc ≠ .leased l) : s'.slots = s.slots := by
  cases a with
  | exchange r' spurious =>
    cases ha
    simp only [step] at hs
    split at hs
    · next n used hpc =>
      split_ifs at hs
      · cases hs
        exact absurd (by simp [St.setPc, St.setRun]) (hno ⟨n, 0⟩)
      · cases hs
        rfl
    · cases hs
  | ask r' need | load r' | test r' =>
    simp only [step] at hs
    split at hs
    · cases hs
      rfl
    · cases hs
  | wrap r' | start r' j w | finish r' j how | drop r' => cases ha

end Steps

theorem numThreads_lt (requested : ℕ) : 2 * numThreads requested < word := by
  have hle : numThreads requested ≤ threadsMax := Nat.min_le_right _ _
  have : 2 * threadsMax < word := by decide
  omega

/-- **parking slots are conserved**: in every reachable state the counter is what the undropped leases have not wrapped yet
plus the wrapped jobs that are not finished. It never exceeds the pool, is never taken below zero, is left alone by a
reservation that fails and returns to zero; while a wrapped job is queued, some worker hosts none -/
theorem parking_conservation [Fintype R] {requested : ℕ} {acts : List (Act R)} {s : St R}
    (hr : run (numThreads requested) (init R) acts = some s) :
    s.slots = ∑ r, (s.runs r).remainder + ∑ r, (s.runs r).unfinished
    ∧ (∀ r l, (s.runs r).pc = .leased l → l.spawned = (s.runs r).jobs.length ∧ l.spawned ≤ l.reserved)
    ∧ s.slots ≤ numThreads requested
    ∧ s.underflow = false
    ∧ (∀ a r s', a.attempt = some r → step (numThreads requested) s a = some s' →
        (∀ l, (s'.runs r).pc ≠ .leased l) → s'.slots = s.slots)
    ∧ ((∀ r l, (s.runs r).pc ≠ .leased l) → (∀ r, ∀ j ∈ (s.runs r).jobs, j = .finished) → s.slots = 0)
    ∧ (∀ r, .queued ∈ (s.runs r).jobs → ∃ w < numThreads requested, ∀ r', .running w ∉ (s.runs r').jobs) := by
  have h := run_inv (numThreads_lt requested) (init_inv _) hr
  have htotal : s.slots = ∑ r, (s.runs r).remainder + ∑ r, (s.runs r).unfinished := by
    rw [← h.total, ← Finset.sum_add_distrib]
    rfl
  refine ⟨htotal, ?_, h.bound, h.sound, fun a r s' => attempt_slots, ?_, fun r => h.free_worker⟩
  · intro r l hpc
    have hok := h.ok r
    simp only [Run.Ok, hpc] at hok
    exact ⟨hok.2, hok.1⟩
  · intro hdropped hfinished
    have hrem : ∀ r, (s.runs r).remainder = 0 := fun r => remainder_eq_zero (hdropped r)
    have hunf : ∀ r, (s.runs r).unfinished = 0 := by
      intro r
      refine List.countP_eq_zero.2 ?_
      intro j hj
      simp [hfinished r j hj, Job.unfinished]
    rw [htotal, Finset.sum_congr rfl fun r _ => hrem r, Finset.sum_congr rfl fun r _ => hunf r]
    simp

/-- two runs race for a pool of two threads: the second reads a stale count, retries and is refused -/
def race : List (Act (Fin 2)) :=
  [.ask 0 2, .ask 1 1, .load 0, .load 1, .test 0, .test 1, .exchange 0 true, .test 0, .exchange 0 false, .exchange 1 false,
    .test 1, .wrap 0, .start 0 0 1, .wrap 0, .drop 0, .finish 0 0 .unwound]

/-- the run of `race` satisfies the hypothesis: the unwound job gave its slot back, the queued one still holds its own -/
theorem parking_conservation_race :
    ∃ s, run (numThreads 2) (init (Fin 2)) race = some s ∧ (s.runs 1).pc = .refused ∧ s.slots = 1
      ∧ ∃ w < numThreads 2, ∀ r', .running w ∉ (s.runs r').jobs := by
  obtain ⟨s, hs, hpc, hjobs, hslots⟩ : ∃ s, run (numThreads 2) (init (Fin 2)) race = some s
      ∧ (s.runs 1).pc = .refused ∧ (s.runs 0).jobs = [.finished, .queued] ∧ s.slots = 1 := ⟨_, rfl, rfl, rfl, rfl⟩
  have h := parking_conservation hs
  exact ⟨s, hs, hpc, hslots, h.2.2.2.2.2.2 0 (by simp [hjobs])⟩

end YouPipe.Parking
