/-
Runs on a shared pool whose stage functions fork and join on the same pool (`WorkerThread::wait_until` and `find_work` in
`pool/registry.rs`, `join_on_captured` in `pool/join.rs`, `ParkingLease` in `builder/typed/stream.rs`).

The state puts three machines together: the queues and stacks of `Pool.Jobs`, the leases of `Pool.Parking`, and one state for
each run. A run is given by its `Engine`: what its parking jobs, the threads outside the pool and its token do, and what is known
about it alone. A stage function is fork/join work (`Work`): it pushes jobs on its worker's deque and waits for them, the most
recent one first.

A worker is its stack of jobs, and only the top one steps. A worker with an empty stack, or whose top job waits for a child that
has not finished, takes the next job `find_work` returns: from its own deque, and when that is empty from the injector or a peer.
A search is one step here; one that finds nothing changes nothing and is no step. The effect of a stage call on its run is shown
at its beginning, since nobody else sees it before the next step of the job.

Callers and collectors are outside the pool. A run posts its jobs one by one once its lease is granted, and drops the lease after
the last.
-/
import Mathlib.Tactic
import YouPipe.Pool.Jobs
import YouPipe.Pool.Parking

namespace YouPipe.Nested

open YouPipe.Pool (numThreads)

/-! ## Runs -/

/-- fork/join work: `wait` waits for the child forked last and not waited for yet -/
inductive Work where
  | done
  | fork (child next : Work)
  | wait (next : Work)
deriving DecidableEq, Repr

/-- who makes a move: a parking job, somebody outside the pool (the collector, a thread, an async task), or the token -/
inductive Owner where
  | job (k : ℕ)
  | outside
  | token
deriving DecidableEq, Repr

/-- a run: its moves with the fork/join work of the stage call they make, its parking jobs, and what holds of it by itself -/
structure Engine where
  St : Type
  Move : Type
  init : St
  step : St → Move → Option St
  owner : Move → Owner
  work : St → Move → Work
  jobs : ℕ
  exited : St → ℕ → Bool
  finished : St → Bool
  Inv : St → Prop
  init_inv : Inv init
  step_inv : ∀ {s s' : St} {m : Move}, Inv s → step s m = some s' → Inv s'
  /-- with everybody scheduled the run is free of deadlock -/
  progress : ∀ {s : St}, Inv s → finished s = false → ∃ m s', owner m ≠ .token ∧ step s m = some s'
  owned : ∀ {m : Move} {k : ℕ}, owner m = .job k → k < jobs
  rests : ∀ {s : St} {m : Move} {k : ℕ}, exited s k = true → owner m = .job k → step s m = none
  stays : ∀ {s s' : St} {m : Move} {k : ℕ}, exited s k = true → step s m = some s' → exited s' k = true

/-- a pool and the runs that are started on it, with what they ask for -/
structure Load (R : Type) where
  requested : ℕ
  engine : R → Engine
  need : R → ℕ
  covers : ∀ r, (engine r).jobs ≤ need r

namespace Load

variable {R : Type}

def threads (c : Load R) : ℕ := numThreads c.requested

theorem threads_pos (c : Load R) : 0 < c.threads := Jobs.numThreads_pos c.requested

/-! ## States -/

/-- what a submitted job is: fork/join work, or the parking job `k` of a run -/
inductive Kind (R : Type) where
  | task
  | park (r : R) (k : ℕ)
deriving DecidableEq, Repr

/-- for each job its kind, the fork/join work it has still to do, and the children it has not waited for, the last one first -/
structure St (c : Load R) where
  pool : Jobs.St
  lease : Parking.St R
  runs : (r : R) → (c.engine r).St
  kind : ℕ → Kind R
  code : ℕ → Work
  latches : ℕ → List ℕ

def init (c : Load R) : c.St :=
  ⟨Jobs.init, Parking.init R, fun r => (c.engine r).init, fun _ => .task, fun _ => .done, fun _ => []⟩

/-- the three sources of `find_work` -/
inductive Source where
  | own
  | injected
  | peer (v : ℕ)
deriving DecidableEq, Repr

inductive Act (c : Load R) where
  /-- a step of `try_reserve_parking` -/
  | reserve (a : Parking.Act R)
  | post (r : R)
  | drop (r : R)
  | outside (r : R) (m : (c.engine r).Move)
  | token (r : R) (m : (c.engine r).Move)
  /-- somebody outside submits fork/join work -/
  | submit (code : Work)
  | find (i : ℕ) (src : Source)
  /-- the top job of worker `i` goes on with its fork/join work, or returns -/
  | work (i : ℕ) (busy : Bool)
  /-- the parking job on top of the stack of worker `i` makes a move of its run -/
  | turn (i : ℕ) (r : R) (m : (c.engine r).Move)

section Steps

variable (c : Load R)

/-- a run asks for what its admission computed -/
def reserves : Parking.Act R → Bool
  | .ask r need => need = c.need r
  | .load _ | .test _ | .exchange _ _ => true
  | _ => false

variable {c} (s : c.St)

/-- the lease of the run was granted -/
def St.admitted (r : R) : Bool :=
  match (s.lease.runs r).pc with
  | .leased _ | .dropped => true
  | _ => false

/-- the job that is submitted next gets its kind and its work -/
def St.enter (kind : Kind R) (code : Work) : c.St :=
  { s with
    kind := Function.update s.kind s.pool.submitted kind
    code := Function.update s.code s.pool.submitted code
    latches := Function.update s.latches s.pool.submitted [] }

/-- the worker searches: it has no job, or its top job waits for a child that has not finished -/
def St.searching (i : ℕ) : Bool :=
  match (s.pool.worker i).frames with
  | [] => true
  | ⟨a, _⟩ :: _ =>
    match s.code a, s.latches a with
    | .wait _, child :: _ => decide (child ∉ s.pool.finished)
    | _, _ => false

/-- the job a search of worker `i` comes to, with the queues it leaves -/
def St.take (i : ℕ) : Source → Option (ℕ × Jobs.St)
  | .own => s.pool.popLocal i
  | .injected => if (s.pool.worker i).deque = [] then s.pool.popInjected else none
  | .peer v => if (s.pool.worker i).deque = [] ∧ v < c.threads ∧ v ≠ i then s.pool.stealFrom v else none

variable [DecidableEq R]

/-- the job in hand goes on top of the stack -/
def St.execute (i j : ℕ) (pool : Jobs.St) : Option c.St :=
  match s.kind j with
  | .task => some { s with pool := pool.start i j }
  | .park r k => (Parking.step c.threads s.lease (.start r k i)).map fun l => { s with pool := pool.start i j, lease := l }

/-- the top job of worker `i` returns -/
def St.finish (i a : ℕ) (rest : List Jobs.Frame) : Jobs.St :=
  { s.pool.setFrames i rest with finished := s.pool.finished ++ [a] }

/-- the next operation of the top job of worker `i` -/
def St.work (i : ℕ) (busy : Bool) : Option c.St :=
  match (s.pool.worker i).frames with
  | [] => none
  | ⟨a, _⟩ :: rest =>
    match s.code a with
    | .fork child next =>
      some { s.enter .task child with
        pool := s.pool.push i busy
        code := Function.update (s.enter .task child).code a next
        latches := Function.update (s.enter .task child).latches a (s.pool.submitted :: s.latches a) }
    | .wait next =>
      match s.latches a with
      | [] => some { s with code := Function.update s.code a next }
      | child :: later =>
        if child ∈ s.pool.finished then
          some { s with code := Function.update s.code a next, latches := Function.update s.latches a later }
        else none
    | .done =>
      match s.kind a with
      | .task => some { s with pool := s.finish i a rest }
      | .park r k =>
        if (c.engine r).exited (s.runs r) k then
          (Parking.step c.threads s.lease (.finish r k .returned)).map fun l => { s with pool := s.finish i a rest, lease := l }
        else none

/-- the top job of worker `i` is a parking job of run `r` between two stage calls, and moves -/
def St.turn (i : ℕ) (r : R) (m : (c.engine r).Move) : Option c.St :=
  match (s.pool.worker i).frames with
  | [] => none
  | ⟨a, _⟩ :: _ =>
    match s.code a, s.kind a with
    | .done, .park r' k =>
      if r' = r ∧ (c.engine r).owner m = .job k then
        ((c.engine r).step (s.runs r) m).map fun x =>
          { s with
            runs := Function.update s.runs r x
            code := Function.update s.code a ((c.engine r).work (s.runs r) m) }
      else none
    | _, _ => none

/-- a move of the run by somebody who is not on the pool -/
def St.away (r : R) (m : (c.engine r).Move) (who : Owner) : Option c.St :=
  if s.admitted r = true ∧ (c.engine r).owner m = who then
    ((c.engine r).step (s.runs r) m).map fun x => { s with runs := Function.update s.runs r x }
  else none

end Steps

def step [DecidableEq R] (c : Load R) (s : c.St) : Act c → Option c.St
  | .reserve a => if c.reserves a then (Parking.step c.threads s.lease a).map fun l => { s with lease := l } else none
  | .post r =>
    if (s.lease.runs r).jobs.length < (c.engine r).jobs then
      (Parking.step c.threads s.lease (.wrap r)).map fun l =>
        { s.enter (.park r (s.lease.runs r).jobs.length) .done with pool := s.pool.inject, lease := l }
    else none
  | .drop r =>
    if (s.lease.runs r).jobs.length = (c.engine r).jobs then
      (Parking.step c.threads s.lease (.drop r)).map fun l => { s with lease := l }
    else none
  | .outside r m => s.away r m .outside
  | .token r m => s.away r m .token
  | .submit code => some { s.enter .task code with pool := s.pool.inject }
  | .find i src =>
    if i < c.threads ∧ s.searching i = true then (s.take i src).bind fun x => s.execute i x.1 x.2 else none
  | .work i busy => if i < c.threads then s.work i busy else none
  | .turn i r m => if i < c.threads then s.turn i r m else none

def run [DecidableEq R] (c : Load R) (s : c.St) (acts : List (Act c)) : Option c.St := acts.foldlM c.step s

/-! ## Direct runs -/

/-- the step does not start a parking job on top of another job -/
def Direct {c : Load R} (s : c.St) : Act c → Prop
  | .find i src => ∀ j p, s.take i src = some (j, p) → (s.pool.worker i).frames ≠ [] → s.kind j = .task
  | _ => True

/-! ## What a step does to the pool -/

section Pool

variable {i j : ℕ} {p p' : Jobs.St}

structure Grows (p p' : Jobs.St) : Prop where
  signalled : p'.signalled = p.signalled
  submitted : p'.submitted = p.submitted + 1
  started : p'.started = p.started
  finished : p'.finished = p.finished
  stack : ∀ k, p'.stack k = p.stack k

/-- worker `i` starts the queued job `j` -/
structure Starts (i j : ℕ) (p p' : Jobs.St) : Prop where
  signalled : p'.signalled = p.signalled
  lt : j < p.submitted
  new : j ∉ p.started
  submitted : p'.submitted = p.submitted
  started : p'.started = p.started ++ [j]
  finished : p'.finished = p.finished
  stack : p'.stack i = j :: p.stack i
  others : ∀ k ≠ i, p'.stack k = p.stack k

/-- the top job `j` of worker `i` returns -/
structure Ends (i j : ℕ) (p p' : Jobs.St) : Prop where
  signalled : p'.signalled = p.signalled
  submitted : p'.submitted = p.submitted
  started : p'.started = p.started
  finished : p'.finished = p.finished ++ [j]
  stack : p.stack i = j :: p'.stack i
  others : ∀ k ≠ i, p'.stack k = p.stack k

theorem inject_grows (p : Jobs.St) : Grows p p.inject := ⟨rfl, rfl, rfl, rfl, fun _ => rfl⟩

theorem push_grows (p : Jobs.St) (i : ℕ) (busy : Bool) : Grows p (p.push i busy) := by
  unfold Jobs.St.push
  split_ifs
  · refine ⟨rfl, rfl, rfl, rfl, fun k => ?_⟩
    rcases eq_or_ne k i with rfl | hne
    · simp [Jobs.St.stack, Jobs.St.setWorker]
    · simp [Jobs.St.stack, Jobs.St.setWorker, hne]
  · exact inject_grows p

theorem finish_ends {f : Jobs.Frame} {rest : List Jobs.Frame} (hf : (p.worker i).frames = f :: rest) :
    Ends i f.job p { p.setFrames i rest with finished := p.finished ++ [f.job] } where
  signalled := rfl
  submitted := rfl
  started := rfl
  finished := rfl
  stack := by simp [Jobs.St.stack, Jobs.St.setFrames, Jobs.St.setWorker, hf]
  others := by
    intro k hk
    simp [Jobs.St.stack, Jobs.St.setFrames, Jobs.St.setWorker, hk]

theorem taken_starts {n : ℕ} (hb : Jobs.Books n p) (ht : Jobs.Taken n j p p') : Starts i j p (p'.start i j) := by
  obtain ⟨-, hsig, hsub, hst, hfin⟩ := ht.rest
  have hjobs := hb.jobs
  rw [ht.queued] at hjobs
  have hnodup : (Jobs.queued n p' + {j} + (p.started : Multiset ℕ)).Nodup := by
    rw [hjobs]
    exact Multiset.nodup_range _
  refine ⟨hsig, ?_, ?_, hsub, ?_, hfin, ?_, ?_⟩
  · rw [← Multiset.mem_range, ← hjobs]
    simp
  · intro hmem
    exact Multiset.disjoint_left.1 (Multiset.nodup_add.1 hnodup).2.2 (by simp) (Multiset.mem_coe.2 hmem)
  · show p'.started ++ [j] = _
    rw [hst]
  · simp [Jobs.St.stack, Jobs.St.start, Jobs.St.setWorker, ht.stack i]
  · intro k hk
    simp [Jobs.St.stack, Jobs.St.start, Jobs.St.setWorker, hk, ht.stack k]

theorem stack_cons (hne : p.stack i ≠ []) : ∃ a flag rest, (p.worker i).frames = ⟨a, flag⟩ :: rest := by
  cases hf : (p.worker i).frames with
  | nil => exact absurd (by rw [Jobs.St.stack, hf]; rfl) hne
  | cons f rest => exact ⟨f.job, f.wait, rest, rfl⟩

theorem take_taken {c : Load R} {s : c.St} (hi : i < c.threads) {src : Source} (h : s.take i src = some (j, p)) :
    Jobs.Taken c.threads j s.pool p := by
  cases src with
  | own => exact Jobs.popLocal_taken hi h
  | injected =>
    simp only [St.take] at h
    split_ifs at h
    exact Jobs.popInjected_taken h
  | peer v =>
    simp only [St.take] at h
    split_ifs at h with hv
    exact Jobs.stealFrom_taken hv.2.1 h

end Pool

/-! ## Parking jobs and their places -/

/-- the lease's record of parking job `k` -/
def jobOf (l : Parking.St R) (r : R) (k : ℕ) : Option Parking.Job := (l.runs r).jobs[k]?

/-- where job `j` is when its lease has recorded it so -/
def Placed (n : ℕ) (p : Jobs.St) (j : ℕ) : Option Parking.Job → Prop
  | some .queued => j ∉ p.started
  | some (.running w) => w < n ∧ j ∈ p.stack w
  | some .finished => j ∈ p.finished
  | none => False

/-- the leases and the pool agree: every recorded parking job is one submitted job, at the place on record -/
structure Tie (n : ℕ) (p : Jobs.St) (l : Parking.St R) (kind : ℕ → Kind R) : Prop where
  placed : ∀ j < p.submitted, ∀ r k, kind j = .park r k → Placed n p j (jobOf l r k)
  posted : ∀ r k, k < (l.runs r).jobs.length → ∃ j < p.submitted, kind j = .park r k
  once : ∀ j < p.submitted, ∀ j' < p.submitted, ∀ r k, kind j = .park r k → kind j' = .park r k → j = j'

/-- the record of job `k` of run `r` becomes `x` -/
structure Records (r : R) (k : ℕ) (x : Parking.Job) (l l' : Parking.St R) : Prop where
  here : jobOf l' r k = some x
  elsewhere : ∀ r' k', r' ≠ r ∨ k' ≠ k → jobOf l' r' k' = jobOf l r' k'
  length : ∀ r', (l'.runs r').jobs.length = (l.runs r').jobs.length

section Tie

variable {n i j k : ℕ} {p p' : Jobs.St} {l l' : Parking.St R} {kind : ℕ → Kind R} {r : R}

theorem Tie.leased (h : Tie n p l kind) (hl : ∀ r, (l'.runs r).jobs = (l.runs r).jobs) : Tie n p l' kind where
  placed := by
    intro j hj r k hk
    rw [jobOf, hl r]
    exact h.placed j hj r k hk
  posted := by
    intro r k hk
    rw [hl r] at hk
    exact h.posted r k hk
  once := h.once

theorem Placed.grow {x : Option Parking.Job} (h : Placed n p j x) (g : Grows p p') : Placed n p' j x := by
  match x with
  | some .queued =>
    show j ∉ p'.started
    rwa [g.started]
  | some (.running w) => exact ⟨h.1, g.stack w ▸ h.2⟩
  | some .finished =>
    show j ∈ p'.finished
    rwa [g.finished]
  | none => exact h

theorem Starts.placed (g : Starts i j p p') {j' : ℕ} {x : Option Parking.Job} (hne : j' ≠ j) (h : Placed n p j' x) :
    Placed n p' j' x := by
  match x with
  | some .queued =>
    show j' ∉ p'.started
    rw [g.started, List.mem_append, List.mem_singleton]
    exact fun hor => hor.elim h hne
  | some (.running w) =>
    refine ⟨h.1, ?_⟩
    rcases eq_or_ne w i with rfl | hw
    · rw [g.stack]
      exact List.mem_cons_of_mem _ h.2
    · rw [g.others w hw]
      exact h.2
  | some .finished =>
    show j' ∈ p'.finished
    rwa [g.finished]
  | none => exact h

theorem Ends.placed (g : Ends i j p p') {j' : ℕ} {x : Option Parking.Job} (hne : j' ≠ j) (h : Placed n p j' x) :
    Placed n p' j' x := by
  match x with
  | some .queued =>
    show j' ∉ p'.started
    rwa [g.started]
  | some (.running w) =>
    refine ⟨h.1, ?_⟩
    rcases eq_or_ne w i with rfl | hw
    · have hmem := h.2
      rw [g.stack] at hmem
      exact (List.mem_cons.1 hmem).resolve_left hne
    · rw [g.others w hw]
      exact h.2
  | some .finished =>
    show j' ∈ p'.finished
    rw [g.finished]
    exact List.mem_append_left _ h
  | none => exact h

/-- a job that is none of the run's own is submitted -/
theorem Tie.grow_task (h : Tie n p l kind) (g : Grows p p') : Tie n p' l (Function.update kind p.submitted .task) := by
  have hold : ∀ {j r k}, j < p'.submitted → Function.update kind p.submitted .task j = .park r k →
      j < p.submitted ∧ kind j = .park r k := by
    intro j r k hj hk
    rcases eq_or_ne j p.submitted with rfl | hne
    · rw [Function.update_self] at hk
      cases hk
    · rw [Function.update_of_ne hne] at hk
      rw [g.submitted] at hj
      exact ⟨by omega, hk⟩
  refine ⟨fun j hj r k hk => ?_, fun r k hk => ?_, fun j hj j' hj' r k hk hk' => ?_⟩
  · obtain ⟨hj, hk⟩ := hold hj hk
    exact (h.placed j hj r k hk).grow g
  · obtain ⟨j, hj, hkind⟩ := h.posted r k hk
    refine ⟨j, by rw [g.submitted]; omega, ?_⟩
    rw [Function.update_of_ne (by omega), hkind]
  · obtain ⟨hj, hk⟩ := hold hj hk
    obtain ⟨hj', hk'⟩ := hold hj' hk'
    exact h.once j hj j' hj' r k hk hk'

/-- the next parking job of run `r` is posted -/
theorem Tie.grow_park (h : Tie n p l kind) (g : Grows p p') (hnew : p.submitted ∉ p.started)
    (hr : (l'.runs r).jobs = (l.runs r).jobs ++ [.queued]) (hl : ∀ r' ≠ r, (l'.runs r').jobs = (l.runs r').jobs) :
    Tie n p' l' (Function.update kind p.submitted (.park r (l.runs r).jobs.length)) := by
  have hlen : ∀ {j r' k}, j < p.submitted → kind j = .park r' k → k < (l.runs r').jobs.length := by
    intro j r' k hj hk
    have hp := h.placed j hj r' k hk
    by_contra hge
    rw [jobOf, List.getElem?_eq_none (Nat.not_lt.1 hge)] at hp
    exact hp
  have hsame : ∀ {r' k}, k < (l.runs r').jobs.length → jobOf l' r' k = jobOf l r' k := by
    intro r' k hk
    rcases eq_or_ne r' r with rfl | hne
    · rw [jobOf, jobOf, hr, List.getElem?_append_left hk]
    · rw [jobOf, jobOf, hl r' hne]
  refine ⟨fun j hj r' k hk => ?_, fun r' k hk => ?_, fun j hj j' hj' r' k hk hk' => ?_⟩
  · rcases eq_or_ne j p.submitted with rfl | hne
    · rw [Function.update_self] at hk
      cases hk
      rw [jobOf, hr, List.getElem?_concat_length]
      show p.submitted ∉ p'.started
      rwa [g.started]
    · rw [Function.update_of_ne hne] at hk
      rw [g.submitted] at hj
      have hj : j < p.submitted := by omega
      rw [hsame (hlen hj hk)]
      exact (h.placed j hj r' k hk).grow g
  · by_cases hk' : k < (l.runs r').jobs.length
    · obtain ⟨j, hj, hkind⟩ := h.posted r' k hk'
      refine ⟨j, by rw [g.submitted]; omega, ?_⟩
      rw [Function.update_of_ne (by omega), hkind]
    · have hrr : r' = r := by
        by_contra hne
        rw [hl r' hne] at hk
        exact hk' hk
      subst hrr
      rw [hr, List.length_append, List.length_singleton] at hk
      obtain rfl : k = (l.runs r').jobs.length := by omega
      exact ⟨p.submitted, by rw [g.submitted]; omega, Function.update_self ..⟩
  · have hboth : ∀ {j j'}, j < p.submitted → j' = p.submitted → kind j = .park r' k →
        Function.update kind p.submitted (.park r (l.runs r).jobs.length) j' = .park r' k → False := by
      rintro j j' hj rfl hk hk'
      rw [Function.update_self] at hk'
      cases hk'
      exact lt_irrefl _ (hlen hj hk)
    rw [g.submitted] at hj hj'
    rcases eq_or_ne j p.submitted with hje | hne <;> rcases eq_or_ne j' p.submitted with hje' | hne'
    · rw [hje, hje']
    · rw [Function.update_of_ne hne'] at hk'
      exact (hboth (by omega) hje hk' hk).elim
    · rw [Function.update_of_ne hne] at hk
      exact (hboth (by omega) hje' hk hk').elim
    · rw [Function.update_of_ne hne] at hk
      rw [Function.update_of_ne hne'] at hk'
      exact h.once j (by omega) j' (by omega) r' k hk hk'

/-- a job that is none of the run's own changes its place -/
theorem Tie.move_task (h : Tie n p l kind) (hsub : p'.submitted = p.submitted) (hk : kind j = .task)
    (hothers : ∀ {j' x}, j' ≠ j → Placed n p j' x → Placed n p' j' x) : Tie n p' l kind := by
  refine ⟨fun j' hj' r k hk' => ?_, fun r k hlt => hsub ▸ h.posted r k hlt, hsub ▸ h.once⟩
  rw [hsub] at hj'
  refine hothers ?_ (h.placed j' hj' r k hk')
  rintro rfl
  rw [hk] at hk'
  cases hk'

/-- a parking job changes its place, and its lease records it -/
theorem Tie.move_park {x : Parking.Job} (h : Tie n p l kind) (hsub : p'.submitted = p.submitted) (hlt : j < p.submitted)
    (hk : kind j = .park r k) (hothers : ∀ {j' x}, j' ≠ j → Placed n p j' x → Placed n p' j' x) (hl : Records r k x l l')
    (hx : Placed n p' j (some x)) : Tie n p' l' kind := by
  refine ⟨fun j' hj' r' k' hk' => ?_, fun r' k' hlt' => ?_, hsub ▸ h.once⟩
  · rw [hsub] at hj'
    rcases eq_or_ne j' j with rfl | hne
    · rw [hk] at hk'
      cases hk'
      rwa [hl.here]
    · have hdiff : r' ≠ r ∨ k' ≠ k := by
        by_contra hsame
        push Not at hsame
        obtain ⟨rfl, rfl⟩ := hsame
        exact hne (h.once j' hj' j hlt r' k' hk' hk)
      rw [hl.elsewhere r' k' hdiff]
      exact hothers hne (h.placed j' hj' r' k' hk')
  · rw [hl.length] at hlt'
    exact hsub ▸ h.posted r' k' hlt'

end Tie

/-! ## What a step does to a lease -/

/-- what a run's place says about its request, and that its lease outlives its posting -/
def Granted (need jobs : ℕ) (x : Parking.Run) : Prop :=
  match x.pc with
  | .load n => n = need
  | .test n _ => n = need
  | .exchange n _ => n = need
  | .leased l => l.reserved = need
  | .dropped => x.jobs.length = jobs
  | _ => True

section Lease

variable {c : Load R} {r : R} {k : ℕ} {l l' : Parking.St R}

theorem release_runs (l : Parking.St R) (m : ℕ) : (l.release m).runs = l.runs := by
  unfold Parking.St.release
  split_ifs <;> rfl

variable [DecidableEq R]

theorem setPc_jobs (l : Parking.St R) (r : R) (pc : Parking.Pc) (r' : R) : ((l.setPc r pc).runs r').jobs = (l.runs r').jobs := by
  rcases eq_or_ne r' r with rfl | hne
  · simp [Parking.St.setPc, Parking.St.setRun]
  · simp [Parking.St.setPc, Parking.St.setRun, hne]

theorem setPc_granted (h : ∀ r, Granted (c.need r) (c.engine r).jobs (l.runs r)) {pc : Parking.Pc}
    (hpc : Granted (c.need r) (c.engine r).jobs ⟨pc, (l.runs r).jobs⟩) (r' : R) :
    Granted (c.need r') (c.engine r').jobs ((l.setPc r pc).runs r') := by
  rcases eq_or_ne r' r with rfl | hne
  · simpa [Parking.St.setPc, Parking.St.setRun] using hpc
  · simpa [Parking.St.setPc, Parking.St.setRun, hne] using h r'

theorem reserve_spec (h : ∀ r, Granted (c.need r) (c.engine r).jobs (l.runs r)) {n : ℕ} {a : Parking.Act R}
    (ha : c.reserves a = true) (hs : Parking.step n l a = some l') :
    (∀ r, (l'.runs r).jobs = (l.runs r).jobs) ∧ ∀ r, Granted (c.need r) (c.engine r).jobs (l'.runs r) := by
  have hset : ∀ r pc, l'.runs = (l.setPc r pc).runs → Granted (c.need r) (c.engine r).jobs ⟨pc, (l.runs r).jobs⟩ →
      (∀ r, (l'.runs r).jobs = (l.runs r).jobs) ∧ ∀ r, Granted (c.need r) (c.engine r).jobs (l'.runs r) := by
    intro r pc heq hpc
    rw [heq]
    exact ⟨setPc_jobs l r pc, setPc_granted h hpc⟩
  cases a with
  | ask r need =>
    simp only [Parking.step] at hs
    split_ifs at hs with hpc
    all_goals cases hs
    · exact hset r (.load need) rfl (show need = c.need r from of_decide_eq_true ha)
    · exact hset r .refused rfl trivial
  | load r =>
    simp only [Parking.step] at hs
    split at hs
    · next need hpc =>
      cases hs
      have hr := h r
      simp only [Granted, hpc] at hr
      exact hset r (.test need l.slots) rfl hr
    · cases hs
  | test r =>
    simp only [Parking.step] at hs
    split at hs
    · next need used hpc =>
      have hr := h r
      simp only [Granted, hpc] at hr
      split_ifs at hs
      all_goals cases hs
      · exact hset r .refused rfl trivial
      · exact hset r (.exchange need used) rfl hr
    · cases hs
  | exchange r spurious =>
    simp only [Parking.step] at hs
    split at hs
    · next need used hpc =>
      have hr := h r
      simp only [Granted, hpc] at hr
      split_ifs at hs
      all_goals cases hs
      · exact hset r (.leased ⟨need, 0⟩) rfl hr
      · exact hset r (.test need l.slots) rfl hr
    · cases hs
  | wrap r | start r j w | finish r j how | drop r => cases ha

theorem drop_spec (h : ∀ r, Granted (c.need r) (c.engine r).jobs (l.runs r)) {n : ℕ}
    (hlen : (l.runs r).jobs.length = (c.engine r).jobs) (hs : Parking.step n l (.drop r) = some l') :
    (∀ r, (l'.runs r).jobs = (l.runs r).jobs) ∧ ∀ r, Granted (c.need r) (c.engine r).jobs (l'.runs r) := by
  simp only [Parking.step] at hs
  split at hs
  · cases hs
    rw [release_runs]
    exact ⟨setPc_jobs l r .dropped, setPc_granted h hlen⟩
  · cases hs

theorem wrap_spec (h : ∀ r, Granted (c.need r) (c.engine r).jobs (l.runs r)) {n : ℕ}
    (hs : Parking.step n l (.wrap r) = some l') :
    (l'.runs r).jobs = (l.runs r).jobs ++ [.queued] ∧ (∀ r' ≠ r, (l'.runs r').jobs = (l.runs r').jobs) ∧
      ∀ r, Granted (c.need r) (c.engine r).jobs (l'.runs r) := by
  simp only [Parking.step] at hs
  split at hs
  · next lease hpc =>
    have hr := h r
    simp only [Granted, hpc] at hr
    split_ifs at hs
    cases hs
    refine ⟨by simp [Parking.St.setRun], fun r' hne => by simp [Parking.St.setRun, hne], fun r' => ?_⟩
    rcases eq_or_ne r' r with rfl | hne
    · simpa [Parking.St.setRun, Granted] using hr
    · simpa [Parking.St.setRun, hne] using h r'
  · cases hs

/-- a record is changed -/
theorem setJob_records (hk : k < (l.runs r).jobs.length) (x : Parking.Job) :
    Records r k x l (l.setRun r ((l.runs r).setJob k x)) where
  here := by simp [jobOf, Parking.St.setRun, Parking.Run.setJob, hk]
  elsewhere := by
    intro r' k' hdiff
    rcases eq_or_ne r' r with rfl | hne
    · have hkk : k ≠ k' := fun he => hdiff.elim (fun h => h rfl) fun h => h he.symm
      simp [jobOf, Parking.St.setRun, Parking.Run.setJob, List.getElem?_set_ne hkk]
    · simp [jobOf, Parking.St.setRun, hne]
  length := by
    intro r'
    rcases eq_or_ne r' r with rfl | hne
    · simp [Parking.St.setRun, Parking.Run.setJob]
    · simp [Parking.St.setRun, hne]

theorem setJob_granted (h : ∀ r, Granted (c.need r) (c.engine r).jobs (l.runs r)) (x : Parking.Job) (r' : R) :
    Granted (c.need r') (c.engine r').jobs ((l.setRun r ((l.runs r).setJob k x)).runs r') := by
  rcases eq_or_ne r' r with rfl | hne
  · simpa [Parking.St.setRun, Parking.Run.setJob, Granted] using h r'
  · simpa [Parking.St.setRun, hne] using h r'

theorem start_spec (h : ∀ r, Granted (c.need r) (c.engine r).jobs (l.runs r)) {n w : ℕ}
    (hs : Parking.step n l (.start r k w) = some l') :
    Records r k (.running w) l l' ∧ ∀ r, Granted (c.need r) (c.engine r).jobs (l'.runs r) := by
  simp only [Parking.step] at hs
  split_ifs at hs with hk
  cases hs
  exact ⟨setJob_records (List.getElem?_eq_some_iff.1 hk.1).1 _, setJob_granted h _⟩

theorem finish_spec (h : ∀ r, Granted (c.need r) (c.engine r).jobs (l.runs r)) {n : ℕ} {how : Parking.Exit}
    (hs : Parking.step n l (.finish r k how) = some l') :
    Records r k .finished l l' ∧ ∀ r, Granted (c.need r) (c.engine r).jobs (l'.runs r) := by
  simp only [Parking.step] at hs
  split at hs
  · next w hk =>
    have hruns : l'.runs = (l.setRun r ((l.runs r).setJob k .finished)).runs := by
      rw [← Option.some.inj hs]
      exact release_runs _ 1
    obtain ⟨hhere, helse, hlen⟩ := setJob_records (List.getElem?_eq_some_iff.1 hk).1 Parking.Job.finished
    simp only [jobOf, ← hruns] at hhere helse hlen
    exact ⟨⟨hhere, helse, hlen⟩, hruns ▸ setJob_granted h _⟩
  · cases hs

end Lease

/-! ## Nesting -/

/-- Stacks grow in the order in which their jobs were started, a job starts after the one that waits for it, and a parking job has
no job under it -/
structure Nest (n : ℕ) (p : Jobs.St) (latches : ℕ → List ℕ) (kind : ℕ → Kind R) : Prop where
  order : ∀ i < n, (p.stack i).Pairwise fun a b => p.started.idxOf b < p.started.idxOf a
  lt : ∀ a, ∀ x ∈ latches a, x < p.submitted
  task : ∀ a, ∀ x ∈ latches a, kind x = .task
  waiting : ∀ a, latches a ≠ [] → a ∈ p.started
  later : ∀ a, ∀ x ∈ latches a, x ∈ p.started → p.started.idxOf a < p.started.idxOf x
  ground : ∀ i < n, ∀ a ∈ (p.stack i).dropLast, kind a = .task

section Nest

variable {n i j : ℕ} {p p' : Jobs.St} {latches latches' : ℕ → List ℕ} {kind : ℕ → Kind R}

/-- a job is submitted -/
theorem Nest.grow (h : Nest n p latches kind) (hb : Jobs.Books n p) (g : Grows p p') (x : Kind R) :
    Nest n p' (Function.update latches p.submitted []) (Function.update kind p.submitted x) := by
  have hmem : ∀ {a y}, y ∈ Function.update latches p.submitted [] a → y ∈ latches a := by
    intro a y hy
    rcases eq_or_ne a p.submitted with rfl | hne
    · simp at hy
    · rwa [Function.update_of_ne hne] at hy
  refine ⟨?_, fun a y hy => ?_, fun a y hy => ?_, fun a ha => ?_, fun a y hy => ?_, fun i hi a ha => ?_⟩
  · rw [g.started]
    exact fun i hi => g.stack i ▸ h.order i hi
  · rw [g.submitted]
    exact Nat.lt_succ_of_lt (h.lt a y (hmem hy))
  · rw [Function.update_of_ne (Nat.ne_of_lt (h.lt a y (hmem hy)))]
    exact h.task a y (hmem hy)
  · obtain ⟨y, hy⟩ := List.exists_mem_of_ne_nil _ ha
    rw [g.started]
    exact h.waiting a (List.ne_nil_of_mem (hmem hy))
  · rw [g.started]
    exact h.later a y (hmem hy)
  · rw [g.stack] at ha
    have hlt := hb.started_lt (hb.mem_started hi (List.mem_of_mem_dropLast ha))
    rw [Function.update_of_ne (Nat.ne_of_lt hlt)]
    exact h.ground i hi a ha

/-- a running job notes the child it has just forked -/
theorem Nest.note (h : Nest n p latches kind) {a x : ℕ} (ha : a ∈ p.started) (hlt : x < p.submitted) (hx : kind x = .task)
    (hnew : x ∉ p.started) {xs : List ℕ} (hxs : ∀ y ∈ xs, y ∈ latches a) :
    Nest n p (Function.update latches a (x :: xs)) kind := by
  have hcases : ∀ {b y}, y ∈ Function.update latches a (x :: xs) b → (b = a ∧ y = x) ∨ y ∈ latches b := by
    intro b y hy
    rcases eq_or_ne b a with rfl | hne
    · rw [Function.update_self] at hy
      exact (List.mem_cons.1 hy).imp (fun h => ⟨rfl, h⟩) (hxs y)
    · rw [Function.update_of_ne hne] at hy
      exact .inr hy
  refine ⟨h.order, fun b y hy => ?_, fun b y hy => ?_, fun b hb => ?_, fun b y hy hst => ?_, h.ground⟩
  · obtain ⟨-, rfl⟩ | hy := hcases hy
    · exact hlt
    · exact h.lt b y hy
  · obtain ⟨-, rfl⟩ | hy := hcases hy
    · exact hx
    · exact h.task b y hy
  · rcases eq_or_ne b a with rfl | hne
    · exact ha
    · rw [Function.update_of_ne hne] at hb
      exact h.waiting b hb
  · obtain ⟨-, rfl⟩ | hy := hcases hy
    · exact absurd hst hnew
    · exact h.later b y hy hst

/-- a job has waited for its last child -/
theorem Nest.forget (h : Nest n p latches kind) {a : ℕ} {xs : List ℕ} (hxs : ∀ y ∈ xs, y ∈ latches a) :
    Nest n p (Function.update latches a xs) kind := by
  have hmem : ∀ {b y}, y ∈ Function.update latches a xs b → y ∈ latches b := by
    intro b y hy
    rcases eq_or_ne b a with rfl | hne
    · rw [Function.update_self] at hy
      exact hxs y hy
    · rwa [Function.update_of_ne hne] at hy
  refine ⟨h.order, fun b y hy => h.lt b y (hmem hy), fun b y hy => h.task b y (hmem hy), fun b hb => ?_,
    fun b y hy => h.later b y (hmem hy), h.ground⟩
  obtain ⟨y, hy⟩ := List.exists_mem_of_ne_nil _ hb
  exact h.waiting b (List.ne_nil_of_mem (hmem hy))

/-- a job is started, a parking job on an empty stack -/
theorem Nest.start (h : Nest n p latches kind) (hb : Jobs.Books n p) (g : Starts i j p p')
    (hd : p.stack i ≠ [] → kind j = .task) : Nest n p' latches kind := by
  have hidx : ∀ {a}, a ∈ p.started → p'.started.idxOf a = p.started.idxOf a := by
    intro a ha
    rw [g.started, List.idxOf_append_of_mem ha]
  have hlast : p'.started.idxOf j = p.started.length := by
    rw [g.started, List.idxOf_append_of_notMem g.new]
    simp
  have hbelow : ∀ {a}, a ∈ p.started → p'.started.idxOf a < p'.started.idxOf j := by
    intro a ha
    rw [hidx ha, hlast]
    exact List.idxOf_lt_length_of_mem ha
  have hold : ∀ k < n, (p.stack k).Pairwise fun a b => p'.started.idxOf b < p'.started.idxOf a := by
    intro k hk
    refine (h.order k hk).imp_of_mem fun {a b} ha hb' hlt => ?_
    rwa [hidx (hb.mem_started hk ha), hidx (hb.mem_started hk hb')]
  refine ⟨fun k hk => ?_, fun a x hx => g.submitted ▸ h.lt a x hx, h.task, fun a ha => ?_, fun a x hx hst => ?_, fun k hk a ha => ?_⟩
  · rcases eq_or_ne k i with rfl | hne
    · rw [g.stack]
      exact List.pairwise_cons.2 ⟨fun b hb' => hbelow (hb.mem_started hk hb'), hold k hk⟩
    · rw [g.others k hne]
      exact hold k hk
  · rw [g.started]
    exact List.mem_append_left _ (h.waiting a ha)
  · have ha := h.waiting a (List.ne_nil_of_mem hx)
    rw [g.started, List.mem_append, List.mem_singleton] at hst
    obtain hst | rfl := hst
    · rw [hidx ha, hidx hst]
      exact h.later a x hx hst
    · exact hbelow ha
  · rcases eq_or_ne k i with rfl | hne
    · rw [g.stack] at ha
      cases hs : p.stack k with
      | nil => simp [hs] at ha
      | cons b rest =>
        rw [hs, List.dropLast_cons_of_ne_nil (by simp)] at ha
        obtain rfl | ha := List.mem_cons.1 ha
        · exact hd (by simp [hs])
        · exact h.ground k hk a (hs ▸ ha)
    · rw [g.others k hne] at ha
      exact h.ground k hk a ha

/-- a job returns -/
theorem Nest.end (h : Nest n p latches kind) (g : Ends i j p p') : Nest n p' latches kind := by
  refine ⟨fun k hk => ?_, fun a x hx => g.submitted ▸ h.lt a x hx, h.task, fun a ha => g.started ▸ h.waiting a ha, fun a x hx => ?_,
    fun k hk a ha => ?_⟩
  · rw [g.started]
    have hord := h.order k hk
    rcases eq_or_ne k i with rfl | hne
    · rw [g.stack] at hord
      exact hord.tail
    · rwa [g.others k hne]
  · rw [g.started]
    exact h.later a x hx
  · rcases eq_or_ne k i with rfl | hne
    · refine h.ground k hk a ?_
      rw [g.stack, List.dropLast_cons_of_ne_nil (List.ne_nil_of_mem (List.mem_of_mem_dropLast ha))]
      exact List.mem_cons_of_mem _ ha
    · rw [g.others k hne] at ha
      exact h.ground k hk a ha

end Nest

/-! ## Invariant -/

structure Inv [Fintype R] {c : Load R} (s : c.St) : Prop where
  pool : Jobs.Inv c.threads s.pool
  calm : s.pool.signalled = 0
  lease : Parking.Inv c.threads s.lease
  runs : ∀ r, (c.engine r).Inv (s.runs r)
  tie : Tie c.threads s.pool s.lease s.kind
  granted : ∀ r, Granted (c.need r) (c.engine r).jobs (s.lease.runs r)
  ended : ∀ r k, jobOf s.lease r k = some .finished → (c.engine r).exited (s.runs r) k = true
  nest : Nest c.threads s.pool s.latches s.kind

section Inv

variable [Fintype R] {c : Load R} {s s' : c.St}

theorem init_inv (c : Load R) : Inv c.init where
  pool := Jobs.init_inv c.threads_pos
  calm := rfl
  lease := Parking.init_inv _
  runs := fun r => (c.engine r).init_inv
  tie := ⟨fun j hj => absurd hj (Nat.not_lt_zero j), fun r k hk => absurd hk (Nat.not_lt_zero k),
    fun j hj => absurd hj (Nat.not_lt_zero j)⟩
  granted := fun _ => trivial
  ended := fun r k hk => by simp [jobOf, init, Parking.init] at hk
  nest := ⟨fun i _ => List.Pairwise.nil, fun a x hx => absurd hx List.not_mem_nil, fun a x hx => absurd hx List.not_mem_nil,
    fun a ha => absurd rfl ha, fun a x hx => absurd hx List.not_mem_nil, fun i _ a ha => absurd ha List.not_mem_nil⟩

/-- nobody has begun to leave -/
theorem Inv.awake (h : Inv s) (i : ℕ) : (s.pool.worker i).base.clean = false := by
  by_contra hc
  have hd := Jobs.Base.draining_of_clean (Bool.eq_true_of_not_eq_false hc)
  have := (h.pool.ok i).latched hd
  rw [h.calm] at this
  exact Nat.not_lt_zero i this

theorem Inv.inject (h : Inv s) : Jobs.Inv c.threads s.pool.inject := by
  refine h.pool.inject ⟨0, c.threads_pos, ?_⟩
  by_contra hc
  have := h.awake 0
  rw [Jobs.Base.clean_of_away (Bool.eq_true_of_not_eq_false hc)] at this
  cases this

/-- a lease moves on without touching a job -/
theorem Inv.leased (h : Inv s) {l : Parking.St R} (hl : Parking.Inv c.threads l)
    (hspec : (∀ r, (l.runs r).jobs = (s.lease.runs r).jobs) ∧ ∀ r, Granted (c.need r) (c.engine r).jobs (l.runs r)) :
    Inv { s with lease := l } where
  pool := h.pool
  calm := h.calm
  lease := hl
  runs := h.runs
  tie := h.tie.leased hspec.1
  granted := hspec.2
  ended := by
    intro r k hk
    refine h.ended r k ?_
    rwa [jobOf, hspec.1 r] at hk
  nest := h.nest

/-- fork/join work is submitted -/
theorem Inv.submitted (h : Inv s) {p : Jobs.St} (hp : Jobs.Inv c.threads p) (g : Grows s.pool p) (code : Work) :
    Inv { s.enter .task code with pool := p } where
  pool := hp
  calm := g.signalled.trans h.calm
  lease := h.lease
  runs := h.runs
  tie := h.tie.grow_task g
  granted := h.granted
  ended := h.ended
  nest := h.nest.grow h.pool.books g .task

theorem Inv.unstarted (h : Inv s) : s.pool.submitted ∉ s.pool.started := by
  intro hmem
  exact lt_irrefl _ (h.pool.books.started_lt hmem)

/-- a parking job on a stack is on record there -/
theorem Inv.on_record (h : Inv s) {i : ℕ} (hi : i < c.threads) {a : ℕ} (ha : a ∈ s.pool.stack i) {r : R} {k : ℕ}
    (hk : s.kind a = .park r k) : jobOf s.lease r k = some (.running i) := by
  have hst := h.pool.books.mem_started hi ha
  have hp := h.tie.placed a (h.pool.books.started_lt hst) r k hk
  match jobOf s.lease r k, hp with
  | some .queued, hp => exact absurd hst hp
  | some (.running w), hp => rw [h.pool.books.stack_unique hp.1 hi hp.2 ha]
  | some .finished, hp => exact absurd hp (h.pool.books.unfinished hi ha)

/-- a parking job that was not started is on record as queued -/
theorem Inv.queued (h : Inv s) {j : ℕ} (hlt : j < s.pool.submitted) (hnew : j ∉ s.pool.started) {r : R} {k : ℕ}
    (hk : s.kind j = .park r k) : jobOf s.lease r k = some .queued := by
  have hp := h.tie.placed j hlt r k hk
  match jobOf s.lease r k, hp with
  | some .queued, hp => rfl
  | some (.running w), hp => exact absurd (h.pool.books.mem_started hp.1 hp.2) hnew
  | some .finished, hp =>
    refine absurd ?_ hnew
    rw [← Multiset.mem_coe, h.pool.books.frames]
    exact Multiset.mem_add.2 (.inl (Multiset.mem_coe.2 hp))

/-- a parking job on top of a stack is alone on it -/
theorem Inv.alone (h : Inv s) {i : ℕ} (hi : i < c.threads) {a : ℕ} {flag : Option Jobs.Look} {rest : List Jobs.Frame}
    (hf : (s.pool.worker i).frames = ⟨a, flag⟩ :: rest) {r : R} {k : ℕ} (hk : s.kind a = .park r k) : s.pool.stack i = [a] := by
  have hstack : s.pool.stack i = a :: rest.map Jobs.Frame.job := by rw [Jobs.St.stack, hf]; rfl
  cases rest with
  | nil => exact hstack
  | cons f rest =>
    have hground := h.nest.ground i hi a (by rw [hstack]; simp)
    rw [hground] at hk
    cases hk

theorem Inv.start_pool (h : Inv s) {i j : ℕ} {p : Jobs.St} (hi : i < c.threads) (ht : Jobs.Taken c.threads j s.pool p) :
    Jobs.Inv c.threads (p.start i j) := by
  have hself : p.setWorker i (p.worker i) = p := by simp [Jobs.St.setWorker]
  have hstart := h.pool.startJob hi ht rfl (by rw [ht.stack i]) (by rw [ht.base i]; exact h.awake i) (fun hd => by
    rw [ht.base i] at hd
    exact (h.pool.ok i).latched hd)
  rwa [hself] at hstart

variable [DecidableEq R]

/-- a run moves -/
theorem Inv.moved (h : Inv s) {r : R} {m : (c.engine r).Move} {x : (c.engine r).St}
    (hm : (c.engine r).step (s.runs r) m = some x) (code : ℕ → Work) :
    Inv { s with runs := Function.update s.runs r x, code := code } where
  pool := h.pool
  calm := h.calm
  lease := h.lease
  runs := by
    intro r'
    show (c.engine r').Inv (Function.update s.runs r x r')
    rcases eq_or_ne r' r with rfl | hne
    · rw [Function.update_self]
      exact (c.engine r').step_inv (h.runs r') hm
    · rw [Function.update_of_ne hne]
      exact h.runs r'
  tie := h.tie
  granted := h.granted
  ended := by
    intro r' k hk
    show (c.engine r').exited (Function.update s.runs r x r') k = true
    rcases eq_or_ne r' r with rfl | hne
    · rw [Function.update_self]
      exact (c.engine r').stays (h.ended r' k hk) hm
    · rw [Function.update_of_ne hne]
      exact h.ended r' k hk
  nest := h.nest

theorem Inv.post (h : Inv s) {r : R} {l : Parking.St R} (hl : Parking.step c.threads s.lease (.wrap r) = some l) :
    Inv { s.enter (.park r (s.lease.runs r).jobs.length) .done with pool := s.pool.inject, lease := l } := by
  obtain ⟨hjobs, hothers, hgranted⟩ := wrap_spec h.granted hl
  refine ⟨h.inject, h.calm, Parking.step_inv (Parking.numThreads_lt _) h.lease hl, h.runs,
    h.tie.grow_park (inject_grows s.pool) h.unstarted hjobs hothers, hgranted, fun r' k hk => ?_,
    h.nest.grow h.pool.books (inject_grows s.pool) _⟩
  refine h.ended r' k ?_
  rcases eq_or_ne r' r with rfl | hne
  · -- the record that was added is not one of a finished job
    simp only [jobOf, hjobs] at hk
    rcases Nat.lt_or_ge k (s.lease.runs r').jobs.length with hlt | hge
    · rwa [List.getElem?_append_left hlt] at hk
    · rw [List.getElem?_append_right hge, List.getElem?_singleton] at hk
      split_ifs at hk
      cases hk
  · simpa only [jobOf, hothers r' hne] using hk

/-- a job is started, a parking job on an empty stack -/
theorem Inv.execute (h : Inv s) {i j : ℕ} {p : Jobs.St} (hi : i < c.threads) (ht : Jobs.Taken c.threads j s.pool p)
    (hd : (s.pool.worker i).frames ≠ [] → s.kind j = .task) (hs : s.execute i j p = some s') : Inv s' := by
  have g : Starts i j s.pool (p.start i j) := taken_starts h.pool.books ht
  have hnest : Nest c.threads (p.start i j) s.latches s.kind :=
    h.nest.start h.pool.books g fun hne => hd fun h0 => hne (by rw [Jobs.St.stack, h0]; rfl)
  unfold St.execute at hs
  split at hs
  · next hk =>
    cases hs
    exact ⟨h.start_pool hi ht, g.signalled.trans h.calm, h.lease, h.runs, h.tie.move_task g.submitted hk g.placed, h.granted,
      h.ended, hnest⟩
  · next r k hk =>
    obtain ⟨l, hl, rfl⟩ := Option.map_eq_some_iff.1 hs
    obtain ⟨hrec, hgranted⟩ := start_spec h.granted hl
    refine ⟨h.start_pool hi ht, g.signalled.trans h.calm, Parking.step_inv (Parking.numThreads_lt _) h.lease hl, h.runs,
      h.tie.move_park g.submitted g.lt hk g.placed hrec ⟨hi, ?_⟩, hgranted, fun r' k' hk' => ?_, hnest⟩
    · rw [g.stack]
      exact List.mem_cons_self
    · refine h.ended r' k' ?_
      by_cases hdiff : r' ≠ r ∨ k' ≠ k
      · rwa [hrec.elsewhere r' k' hdiff] at hk'
      · push Not at hdiff
        obtain ⟨rfl, rfl⟩ := hdiff
        rw [hrec.here] at hk'
        cases hk'

/-- the top job goes on -/
theorem Inv.work (h : Inv s) {i : ℕ} {busy : Bool} (hi : i < c.threads) (hs : s.work i busy = some s') : Inv s' := by
  unfold St.work at hs
  split at hs
  · cases hs
  next a flag rest hf =>
  have hmem : a ∈ s.pool.stack i := by simp [Jobs.St.stack, hf]
  have hst := h.pool.books.mem_started hi hmem
  have hlt := h.pool.books.started_lt hst
  have g : Ends i a s.pool (s.finish i a rest) := finish_ends hf
  have hfin : Jobs.Inv c.threads (s.finish i a rest) := h.pool.finish hi hf
  split at hs
  · next child next hcode =>
    cases hs
    have hpush := h.pool.push hi (by simp [hf]) busy
    have hnew := h.submitted hpush (push_grows s.pool i busy) child
    refine ⟨hpush, hnew.calm, h.lease, h.runs, hnew.tie, h.granted, h.ended, hnew.nest.note ?_ ?_ ?_ ?_ fun y hy => ?_⟩
    · rw [(push_grows s.pool i busy).started]
      exact hst
    · rw [(push_grows s.pool i busy).submitted]
      exact Nat.lt_succ_self _
    · exact Function.update_self ..
    · rw [(push_grows s.pool i busy).started]
      exact h.unstarted
    · show y ∈ Function.update s.latches s.pool.submitted [] a
      rwa [Function.update_of_ne (Nat.ne_of_lt hlt)]
  · next next hcode =>
    split at hs
    · cases hs
      exact ⟨h.pool, h.calm, h.lease, h.runs, h.tie, h.granted, h.ended, h.nest⟩
    · next child later hlatch =>
      split_ifs at hs
      cases hs
      refine ⟨h.pool, h.calm, h.lease, h.runs, h.tie, h.granted, h.ended, h.nest.forget fun y hy => ?_⟩
      rw [hlatch]
      exact List.mem_cons_of_mem _ hy
  · split at hs
    · next hk =>
      cases hs
      exact ⟨hfin, h.calm, h.lease, h.runs, h.tie.move_task g.submitted hk g.placed, h.granted, h.ended, h.nest.end g⟩
    · next r k hk =>
      split_ifs at hs with hexit
      obtain ⟨l, hl, rfl⟩ := Option.map_eq_some_iff.1 hs
      obtain ⟨hrec, hgranted⟩ := finish_spec h.granted hl
      refine ⟨hfin, h.calm, Parking.step_inv (Parking.numThreads_lt _) h.lease hl, h.runs,
        h.tie.move_park g.submitted hlt hk g.placed hrec ?_, hgranted, fun r' k' hk' => ?_, h.nest.end g⟩
      · show a ∈ (s.finish i a rest).finished
        rw [g.finished]
        exact List.mem_append_right _ (List.mem_singleton_self a)
      · by_cases hdiff : r' ≠ r ∨ k' ≠ k
        · refine h.ended r' k' ?_
          rwa [hrec.elsewhere r' k' hdiff] at hk'
        · push Not at hdiff
          obtain ⟨rfl, rfl⟩ := hdiff
          exact hexit

theorem Inv.turn (h : Inv s) {i : ℕ} {r : R} {m : (c.engine r).Move} (hs : s.turn i r m = some s') : Inv s' := by
  unfold St.turn at hs
  split at hs
  · cases hs
  · split at hs
    · split_ifs at hs
      obtain ⟨x, hx, rfl⟩ := Option.map_eq_some_iff.1 hs
      exact h.moved hx _
    · cases hs

theorem Inv.away (h : Inv s) {r : R} {m : (c.engine r).Move} {who : Owner} (hs : s.away r m who = some s') : Inv s' := by
  unfold St.away at hs
  split_ifs at hs
  obtain ⟨x, hx, rfl⟩ := Option.map_eq_some_iff.1 hs
  exact h.moved hx _

/-- **a direct step keeps the invariant** -/
theorem step_inv {a : Act c} (h : Inv s) (hd : Direct s a) (hs : c.step s a = some s') : Inv s' := by
  cases a with
  | reserve a =>
    simp only [step] at hs
    split_ifs at hs with ha
    obtain ⟨l, hl, rfl⟩ := Option.map_eq_some_iff.1 hs
    exact h.leased (Parking.step_inv (Parking.numThreads_lt _) h.lease hl) (reserve_spec h.granted ha hl)
  | post r =>
    simp only [step] at hs
    split_ifs at hs
    obtain ⟨l, hl, rfl⟩ := Option.map_eq_some_iff.1 hs
    exact h.post hl
  | drop r =>
    simp only [step] at hs
    split_ifs at hs with hlen
    obtain ⟨l, hl, rfl⟩ := Option.map_eq_some_iff.1 hs
    exact h.leased (Parking.step_inv (Parking.numThreads_lt _) h.lease hl) (drop_spec h.granted hlen hl)
  | outside r m => exact h.away hs
  | token r m => exact h.away hs
  | submit code =>
    cases hs
    exact h.submitted h.inject (inject_grows s.pool) code
  | find i src =>
    simp only [step] at hs
    split_ifs at hs with hi
    obtain ⟨⟨j, p⟩, hx, hs⟩ := Option.bind_eq_some_iff.1 hs
    exact h.execute hi.1 (take_taken hi.1 hx) (hd j p hx) hs
  | work i busy =>
    simp only [step] at hs
    split_ifs at hs with hi
    exact h.work hi hs
  | turn i r m =>
    simp only [step] at hs
    split_ifs at hs with hi
    exact h.turn hs

end Inv

/-! ## Progress -/

/-- a step of a worker, a collector or a poster; reservations, dropped leases, tokens and new work do not count -/
def Act.active {c : Load R} : Act c → Bool
  | .post _ | .outside _ _ | .find _ _ | .work _ _ | .turn _ _ _ => true
  | _ => false

def Enabled [DecidableEq R] {c : Load R} (s : c.St) : Prop := ∃ a s', Act.active a = true ∧ c.step s a = some s'

section Progress

variable [DecidableEq R] {c : Load R} {s : c.St} {i : ℕ}

theorem enabled_of_ne {a : Act c} (ha : a.active = true) (hs : c.step s a ≠ none) : Enabled s := by
  obtain ⟨s', hs'⟩ := Option.ne_none_iff_exists'.1 hs
  exact ⟨a, s', ha, hs'⟩

theorem enabled_work (hi : i < c.threads) (hw : s.work i false ≠ none) : Enabled s := by
  refine enabled_of_ne rfl (a := .work i false) ?_
  rwa [step, if_pos hi]

/-- what the top job of a stack is at: it can go on, it waits for a child, or it is a parking job between two stage calls -/
theorem top_cases (hi : i < c.threads) {a : ℕ} {flag : Option Jobs.Look} {rest : List Jobs.Frame}
    (hf : (s.pool.worker i).frames = ⟨a, flag⟩ :: rest) :
    Enabled s ∨ (s.searching i = true ∧ ∃ child later, s.latches a = child :: later ∧ child ∉ s.pool.finished) ∨
      (s.code a = .done ∧ ∃ r k, s.kind a = .park r k) := by
  cases hcode : s.code a with
  | fork child next =>
    refine .inl (enabled_work hi ?_)
    simp [St.work, hf, hcode]
  | wait next =>
    cases hl : s.latches a with
    | nil =>
      refine .inl (enabled_work hi ?_)
      simp [St.work, hf, hcode, hl]
    | cons child later =>
      by_cases hfin : child ∈ s.pool.finished
      · refine .inl (enabled_work hi ?_)
        simp [St.work, hf, hcode, hl, hfin]
      · refine .inr (.inl ⟨?_, child, later, rfl, hfin⟩)
        simp only [St.searching, hf, hcode, hl, decide_eq_true_eq]
        exact hfin
  | done =>
    cases hk : s.kind a with
    | task =>
      refine .inl (enabled_work hi ?_)
      simp [St.work, hf, hcode, hk]
    | park r k => exact .inr (.inr ⟨rfl, r, k, rfl⟩)

variable [Fintype R]

/-- a search with a job in some queue finds one -/
theorem Inv.find (h : Inv s) (hi : i < c.threads) (hs : s.searching i = true)
    (hq : s.pool.injector ≠ [] ∨ ∃ v < c.threads, (s.pool.worker v).deque ≠ []) : Enabled s := by
  have hpop : ∀ {l : List ℕ}, l ≠ [] → ∃ j, l.getLast? = some j := fun hl => ⟨_, List.getLast?_eq_some_getLast hl⟩
  have hhead : ∀ {l : List ℕ}, l ≠ [] → ∃ j, l.head? = some j := fun hl => ⟨_, List.head?_eq_some_head hl⟩
  obtain ⟨src, j, p, htake⟩ : ∃ src j p, s.take i src = some (j, p) := by
    by_cases hown : (s.pool.worker i).deque = []
    · by_cases hinj : s.pool.injector = []
      · obtain ⟨v, hv, hd⟩ := hq.resolve_left fun hne => hne hinj
        obtain ⟨j, hj⟩ := hhead hd
        refine ⟨.peer v, j, s.pool.setWorker v ((s.pool.worker v).setDeque (s.pool.worker v).deque.tail), ?_⟩
        rw [St.take, if_pos ⟨hown, hv, fun he => hd (he ▸ hown)⟩, Jobs.St.stealFrom, hj]
        rfl
      · obtain ⟨j, hj⟩ := hhead hinj
        refine ⟨.injected, j, { s.pool with injector := s.pool.injector.tail }, ?_⟩
        rw [St.take, if_pos hown, Jobs.St.popInjected, hj]
        rfl
    · obtain ⟨j, hj⟩ := hpop hown
      refine ⟨.own, j, s.pool.setWorker i ((s.pool.worker i).setDeque (s.pool.worker i).deque.dropLast), ?_⟩
      rw [St.take, Jobs.St.popLocal, hj]
      rfl
  have g : Starts i j s.pool (p.start i j) := taken_starts h.pool.books (take_taken hi htake)
  obtain ⟨s', hs'⟩ : ∃ s', s.execute i j p = some s' := by
    unfold St.execute
    split
    · exact ⟨_, rfl⟩
    · next r k hk =>
      have hstart : Parking.step c.threads s.lease (.start r k i) = some (s.lease.setRun r ((s.lease.runs r).setJob k (.running i))) :=
        if_pos ⟨h.queued g.lt g.new hk, hi⟩
      rw [hstart]
      exact ⟨_, rfl⟩
  refine ⟨.find i src, s', rfl, ?_⟩
  simp only [step, if_pos (And.intro hi hs), htake]
  exact hs'

/-- **a waiting job is not stuck.** Its child is queued, and then it can search; or the child is on a stack, whose top job was
started after the waiting one: so the last of the waiting jobs has its child queued. -/
theorem Inv.waiting (h : Inv s) (hi : i < c.threads) {a : ℕ} {flag : Option Jobs.Look} {rest : List Jobs.Frame}
    (hf : (s.pool.worker i).frames = ⟨a, flag⟩ :: rest) (hs : s.searching i = true) {child : ℕ} {later : List ℕ}
    (hl : s.latches a = child :: later) (hfin : child ∉ s.pool.finished) : Enabled s := by
  induction hn : s.pool.started.length - s.pool.started.idxOf a using Nat.strong_induction_on
    generalizing i a flag rest child later with
  | _ n ih =>
    have hmem : child ∈ s.latches a := by rw [hl]; exact List.mem_cons_self
    by_cases hst : child ∈ s.pool.started
    · obtain ⟨i', hi', hchild⟩ := h.pool.books.stack_of_started hst hfin
      obtain ⟨b, flag', rest', hf'⟩ := stack_cons (List.ne_nil_of_mem hchild)
      have hstack : s.pool.stack i' = b :: rest'.map Jobs.Frame.job := by rw [Jobs.St.stack, hf']; rfl
      have hlt : s.pool.started.idxOf a < s.pool.started.idxOf b := by
        have hac := h.nest.later a child hmem hst
        have hord := h.nest.order i' hi'
        rw [hstack, List.pairwise_cons] at hord
        rw [hstack] at hchild
        obtain rfl | hin := List.mem_cons.1 hchild
        · exact hac
        · exact hac.trans (hord.1 child hin)
      have hb : b ∈ s.pool.started := h.pool.books.mem_started hi' (by rw [hstack]; exact List.mem_cons_self)
      obtain he | ⟨hs', child', later', hl', hfin'⟩ | ⟨-, r, k, hk⟩ := top_cases hi' hf'
      · exact he
      · refine ih _ ?_ hi' hf' hs' hl' hfin' rfl
        have := List.idxOf_lt_length_of_mem hb
        omega
      · -- the child would be a parking job
        rw [h.alone hi' hf' hk, List.mem_singleton] at hchild
        rw [← hchild, h.nest.task a child hmem] at hk
        cases hk
    · refine h.find hi hs ?_
      obtain hinj | ⟨v, hv, hd⟩ := h.pool.books.queued_of_unstarted (h.nest.lt a child hmem) hst
      · exact .inl (List.ne_nil_of_mem hinj)
      · exact .inr ⟨v, hv, List.ne_nil_of_mem hd⟩

/-- a parking job that is not on record can be posted -/
theorem Inv.post_next (h : Inv s) {r : R} (ha : s.admitted r = true) (hlt : (s.lease.runs r).jobs.length < (c.engine r).jobs) :
    Enabled s := by
  have hg := h.granted r
  have hok := h.lease.ok r
  unfold St.admitted at ha
  split at ha
  · next l hpc =>
    simp only [Granted, hpc] at hg
    simp only [Parking.Run.Ok, hpc] at hok
    have hres : l.spawned < l.reserved := by
      have := c.covers r
      omega
    refine enabled_of_ne rfl (a := .post r) ?_
    simp [step, if_pos hlt, Parking.step, hpc, hres]
  · next hpc =>
    simp only [Granted, hpc] at hg
    omega
  · cases ha

/-- **no state of a direct run is stuck** while an admitted run is unfinished -/
theorem Inv.live (h : Inv s) {r : R} (ha : s.admitted r = true) (hr : (c.engine r).finished (s.runs r) = false) : Enabled s := by
  obtain ⟨m, x, hm, hx⟩ := (c.engine r).progress (h.runs r) hr
  cases howner : (c.engine r).owner m with
  | token => exact absurd howner hm
  | outside =>
    refine enabled_of_ne rfl (a := .outside r m) ?_
    simp [step, St.away, ha, howner, hx]
  | job k =>
    have hk := (c.engine r).owned howner
    -- a worker that hosts no parking job on top can search, or somebody else can go on
    have htop : ∀ {w}, w < c.threads → (∀ a ∈ s.pool.stack w, ∀ r' k', s.kind a ≠ .park r' k') →
        (s.pool.injector ≠ [] ∨ ∃ v < c.threads, (s.pool.worker v).deque ≠ []) → Enabled s := by
      intro w hw hnone hq
      cases hf : (s.pool.worker w).frames with
      | nil => exact h.find hw (by simp [St.searching, hf]) hq
      | cons f rest =>
        obtain he | ⟨hs, child, later, hl, hfin⟩ | ⟨-, r', k', hk'⟩ := top_cases hw hf
        · exact he
        · exact h.waiting hw hf hs hl hfin
        · exact absurd hk' (hnone f.job (by simp [Jobs.St.stack, hf]) r' k')
    cases hj : jobOf s.lease r k with
    | none => exact h.post_next ha (lt_of_le_of_lt (List.getElem?_eq_none_iff.1 hj) hk)
    | some job =>
      obtain ⟨j, hjlt, hkind⟩ := h.tie.posted r k (List.getElem?_eq_some_iff.1 hj).1
      have hp := h.tie.placed j hjlt r k hkind
      rw [hj] at hp
      cases job with
      | queued =>
        obtain ⟨w, hw, hfree⟩ := h.lease.free_worker (List.mem_of_getElem? hj)
        refine htop hw (fun a ha' r' k' hk' => ?_) ?_
        · exact hfree r' (List.mem_of_getElem? (h.on_record hw ha' hk'))
        · obtain hinj | ⟨v, hv, hd⟩ := h.pool.books.queued_of_unstarted hjlt hp
          · exact .inl (List.ne_nil_of_mem hinj)
          · exact .inr ⟨v, hv, List.ne_nil_of_mem hd⟩
      | running w =>
        obtain ⟨b, flag, rest, hf⟩ := stack_cons (List.ne_nil_of_mem hp.2)
        obtain he | ⟨hs, child, later, hl, hfin⟩ | ⟨hcode, r', k', hk'⟩ := top_cases hp.1 hf
        · exact he
        · exact h.waiting hp.1 hf hs hl hfin
        · have hmem := hp.2
          rw [h.alone hp.1 hf hk', List.mem_singleton] at hmem
          subst hmem
          refine enabled_of_ne rfl (a := .turn w r m) ?_
          simp [step, hp.1, St.turn, hf, hcode, hkind, howner, hx]
      | finished =>
        rw [(c.engine r).rests (h.ended r k hj) howner] at hx
        cases hx

end Progress

/-! ## Runs -/

/-- every step of the run is direct -/
def Directly [DecidableEq R] (c : Load R) (s : c.St) : List (Act c) → Prop
  | [] => True
  | a :: acts => Direct s a ∧ ∀ s', c.step s a = some s' → c.Directly s' acts

theorem run_inv [DecidableEq R] [Fintype R] {c : Load R} {s s' : c.St} {acts : List (Act c)} (h : Inv s) (hd : c.Directly s acts)
    (hr : c.run s acts = some s') : Inv s' := by
  induction acts generalizing s with
  | nil =>
    cases hr
    exact h
  | cons a acts ih =>
    obtain ⟨s₁, hs, hr⟩ := Option.bind_eq_some_iff.1 hr
    exact ih (step_inv h hd.1 hs) (hd.2 s₁ hs) hr

end Load

end YouPipe.Nested
