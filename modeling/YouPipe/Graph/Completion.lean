/-
The worker budget of a graph run and its completion counter (`resolve_budget`, the spawn steps, `GraphCore` and `DoneCounter`
in `graph/exec.rs`, the two async spawn steps in `graph/async_exec.rs`).

Numbers are exact naturals (`Graph/Arithmetic.lean` has the words). The snapshot of the pool's lease load and the outcome of
the reservation are arbitrary. The main thread walks the nodes in the returned order and dispatches what each spawn step hands
over, one job or task a step; dispatched ones run at any time from then on, also while the walk goes on. A body returns or
panics; the wrapper records the panic, cancels the token and takes one off the counter. A section under the counter's mutex is
one step; the condition variable may wake the main thread without a notification. The bridges of the connectors never touch
the counter and are left out, and so is the refusal of uncollected outputs in front of the run.

`decs` lists who took one off the counter, `saturated` records a subtraction from zero.

Results:
- `dispatches_total`, `pool_mode`: what the walk dispatches is what the budget counted, and in pool mode what it reserved;
- `graph_accounting`: the accounts in every state of every run, from the invariant `Inv`.
-/
import Mathlib.Tactic
import YouPipe.Core.Machine
import YouPipe.Graph.Arithmetic
import YouPipe.Graph.Plan
import YouPipe.Pool.Parking

namespace YouPipe.Completion

open YouPipe.Graph YouPipe.Admit
open YouPipe.Usize (NodeOpts isDivided isFeeder)
open YouPipe.Parking (Lease Exit)

/-! ## The budget -/

/-- the spawn steps that the builder registers -/
inductive SpawnStep where
  | source
  | sourceAsync
  | node
  | expandNode
  | nodeAsync
  | sink
  | collect
deriving DecidableEq, Repr

/-- what is dispatched: a pool job (an OS thread in dedicated mode), or a task of the runtime -/
inductive Form where
  | job
  | task
deriving DecidableEq, Repr

/-- what a spawn step hands to `dispatch_jobs` and `spawn_task`; sources and sinks ignore their worker argument -/
def SpawnStep.dispatches (workers : ℕ) : SpawnStep → List Form
  | .source => [.job]
  | .sourceAsync => [.task]
  | .node => List.replicate workers .job
  | .expandNode => List.replicate workers .job
  | .nodeAsync => List.replicate workers .task
  | .sink => [.job]
  | .collect => [.job]

/-- the builder methods pair a step with a kind -/
def SpawnStep.serves {T : Type} : SpawnStep → NodeKind T → Bool
  | .source, .source => true
  | .sourceAsync, .sourceAsync => true
  | .node, .sync _ => true
  | .expandNode, .expand _ => true
  | .nodeAsync, .async _ => true
  | .sink, .sink => true
  | .collect, .sink => true
  | _, _ => false

/-- the inputs of `run_graph`: an accepted plan with the options and the spawn step of each node, the configuration (whose
setter refuses an `io_concurrency` of zero), what is seen of the pool -/
structure GraphRun (T : Type) where
  plan : GraphPlan T
  order : List ℕ
  opts : ℕ → NodeOpts
  spawn : ℕ → SpawnStep
  config : PipelineConfig
  ioConcurrency : ℕ+
  pool : PoolView
  accepted : plan.validateAndOrder = .ok order
  registered : ∀ u < plan.nodes.length, (spawn u).serves (plan.kind u) = true

structure RunPlan where
  dedicated : Bool
  lease : Option ℕ
  workers : List ℕ
deriving DecidableEq, Repr

namespace GraphRun

variable {T : Type} (r : GraphRun T)

def nodes : List (NodeKind T × NodeOpts) := (List.range r.plan.nodes.length).map fun u => (r.plan.kind u, r.opts u)

def feeders : ℕ := (r.nodes.filter fun node => isFeeder node.1).length

def sinks : ℕ := (r.nodes.filter fun node => node.1.isSink).length

def divided : List NodeOpts := (r.nodes.filter fun node => isDivided node.1).map Prod.snd

def pinnedWorkers : ℕ := ((r.divided.filterMap NodeOpts.workers).map PNat.val).sum

def unpinnedDivided : ℕ := r.divided.length - (r.divided.filter fun opts => opts.workers.isSome).length

def shareOf (budget : ℕ) : ℕ :=
  if r.unpinnedDivided = 0 then 1 else max ((budget - r.pinnedWorkers) / r.unpinnedDivided) 1

/-- the share of a run on the pool, from the live slots of the snapshot -/
def share : ℕ :=
  let live := r.pool.numWorkers - (r.pool.parkingUsed + r.feeders + r.sinks)
  r.shareOf (min (workersBudget r.config r.pool) live)

def need : ℕ := r.feeders + r.sinks + r.pinnedWorkers + r.unpinnedDivided * r.share

/-- the worker count of a node, or the task fan-out of an async one -/
def workersOf (share : ℕ) (node : NodeKind T × NodeOpts) : ℕ :=
  match node.1 with
  | .source => 1
  | .sourceAsync => 1
  | .sink => 1
  | .sync _ => (node.2.workers.map PNat.val).getD share
  | .expand _ => (node.2.workers.map PNat.val).getD share
  | .async _ => (node.2.ioConcurrency.map PNat.val).getD r.ioConcurrency

def resolveBudget : RunPlan :=
  let dedicated := ⟨true, none, r.nodes.map (r.workersOf (r.shareOf (workersBudget r.config r.pool)))⟩
  if r.pool.isOnThisPool then dedicated
  else if r.need ≤ r.pool.numWorkers && r.pool.tryReserveParking r.need then
    ⟨false, some r.need, r.nodes.map (r.workersOf r.share)⟩
  else dedicated

def workersAt (u : ℕ) : ℕ := r.resolveBudget.workers.getD u 0

/-- `total_workers`, the initial count -/
def totalWorkers : ℕ := r.resolveBudget.workers.sum

/-- what the walk dispatches for a node -/
def spawns (u : ℕ) : List Form := (r.spawn u).dispatches (r.workersAt u)

/-- what the walk dispatches -/
def dispatches : List Form := r.order.flatMap r.spawns

/-- whether the async backend was built -/
def hasSpawner : Bool := r.nodes.any fun node => node.1.isAsync

end GraphRun

/-! ## The run -/

/-- a dispatched job or task: its body runs, then its wrapper ends it -/
inductive Job (P : Type) where
  | queued
  | running
  /-- a panic caught by the wrapper -/
  | caught (payload : P)
  /-- with the panic recorded, before the token -/
  | recorded
  /-- in front of `dec` -/
  | ended (how : Exit)
  | finished (how : Exit)
deriving DecidableEq, Repr

/-- the main thread -/
inductive Main where
  /-- on the walk: what the node at hand still dispatches, and the nodes after it -/
  | walk (left : List Form) (nodes : List ℕ)
  /-- the failed `expect` of `spawn_task` -/
  | noSpawner
  /-- in `wait`, about to take the lock and to test the count -/
  | testing
  /-- on the condition variable -/
  | parked
  | returned
deriving DecidableEq, Repr

structure St (P : Type) where
  count : ℕ
  saturated : Bool
  decs : List ℕ
  lease : Option Lease
  jobs : List (Form × Job P)
  panic : Option P
  cancelled : Bool
  main : Main
deriving DecidableEq, Repr

inductive Act (P : Type) where
  | nextNode
  | dispatch
  | endWalk
  | test
  /-- a wake-up without notification -/
  | wake
  | start (j : ℕ)
  /-- the body returns, or panics with a payload -/
  | exit (j : ℕ) (payload : Option P)
  | record (j : ℕ)
  | cancel (j : ℕ)
  | dec (j : ℕ)
deriving DecidableEq, Repr

section Steps

variable {T P : Type} (r : GraphRun T)

/-- a run of an empty plan returns at once -/
def init : St P :=
  if r.plan.nodes = [] then ⟨0, false, [], none, [], none, false, .returned⟩
  else ⟨r.totalWorkers, false, [], r.resolveBudget.lease.map fun need => ⟨need, 0⟩, [], none, false, .walk [] r.order⟩

def St.setJob (s : St P) (j : ℕ) (f : Form) (job : Job P) : St P := { s with jobs := s.jobs.set j (f, job) }

/-- `dispatch_jobs` of one job, `spawn_task` of one task -/
def St.dispatch (s : St P) (left : List Form) (nodes : List ℕ) : Form → St P
  | .job =>
    { s with
      lease := if r.resolveBudget.dedicated then s.lease else s.lease.map fun l => { l with spawned := l.spawned + 1 }
      jobs := s.jobs ++ [(.job, .queued)]
      main := .walk left nodes }
  | .task =>
    if r.hasSpawner then { s with jobs := s.jobs ++ [(.task, .queued)], main := .walk left nodes }
    else { s with main := .noSpawner }

/-- `notify_all` -/
def Main.notified : Main → Main
  | .parked => .testing
  | m => m

/-- `DoneCounter::dec` of job `j` -/
def St.dec (s : St P) (j : ℕ) : St P :=
  { s with
    count := s.count - 1
    saturated := s.saturated || decide (s.count = 0)
    decs := s.decs ++ [j]
    main := if s.count - 1 = 0 then s.main.notified else s.main }

def step (s : St P) : Act P → Option (St P)
  | .nextNode =>
    match s.main with
    | .walk [] (u :: nodes) => some { s with main := .walk (r.spawns u) nodes }
    | _ => none
  | .dispatch =>
    match s.main with
    | .walk (f :: left) nodes => some (s.dispatch r left nodes f)
    | _ => none
  | .endWalk =>
    match s.main with
    | .walk [] [] => some { s with main := .testing }
    | _ => none
  | .test =>
    match s.main with
    | .testing => some { s with main := if 0 < s.count then .parked else .returned }
    | _ => none
  | .wake =>
    match s.main with
    | .parked => some { s with main := .testing }
    | _ => none
  | .start j =>
    match s.jobs[j]? with
    | some (f, .queued) => some (s.setJob j f .running)
    | _ => none
  | .exit j payload =>
    match s.jobs[j]? with
    | some (f, .running) =>
      match payload with
      | none => some (s.setJob j f (.ended .returned))
      | some p => some (s.setJob j f (.caught p))
    | _ => none
  | .record j =>
    match s.jobs[j]? with
    -- the first writer wins
    | some (f, .caught p) => some { s.setJob j f .recorded with panic := s.panic <|> some p }
    | _ => none
  | .cancel j =>
    match s.jobs[j]? with
    | some (f, .recorded) => some { s.setJob j f (.ended .unwound) with cancelled := true }
    | _ => none
  | .dec j =>
    match s.jobs[j]? with
    | some (f, .ended how) => some ((s.setJob j f (.finished how)).dec j)
    | _ => none

def run (s : St P) (acts : List (Act P)) : Option (St P) := acts.foldlM (step r) s

end Steps

/-! ## What the budget counts -/

/-- the kinds whose workers take a slot of the pool -/
def onPool {T : Type} : NodeKind T → Bool
  | .source => true
  | .sink => true
  | .sync _ => true
  | .expand _ => true
  | .async _ => false
  | .sourceAsync => false

namespace GraphRun

variable {T : Type} (r : GraphRun T)

theorem one_le_shareOf (budget : ℕ) : 1 ≤ r.shareOf budget := by
  unfold shareOf
  split_ifs
  · exact le_rfl
  · exact le_max_right _ _

theorem one_le_workersOf {share : ℕ} (h : 1 ≤ share) (node : NodeKind T × NodeOpts) : 1 ≤ r.workersOf share node := by
  have hpin : ∀ (pin : Option ℕ+) {d : ℕ}, 1 ≤ d → 1 ≤ (pin.map PNat.val).getD d := by
    intro pin d hd
    rcases pin with _ | w
    · exact hd
    · exact w.pos
  obtain ⟨kind, opts⟩ := node
  cases kind with
  | source | sourceAsync | sink => exact le_rfl
  | sync f | expand f => exact hpin _ h
  | async f => exact hpin _ r.ioConcurrency.pos

/-- the two ways a run is admitted -/
theorem resolveBudget_cases :
    (∃ share, 1 ≤ share ∧ r.resolveBudget = ⟨true, none, r.nodes.map (r.workersOf share)⟩) ∨
      r.need ≤ r.pool.numWorkers ∧ r.resolveBudget = ⟨false, some r.need, r.nodes.map (r.workersOf r.share)⟩ := by
  unfold resolveBudget
  dsimp only
  split_ifs with hon hadm
  · exact Or.inl ⟨_, r.one_le_shareOf _, rfl⟩
  · rw [Bool.and_eq_true, decide_eq_true_eq] at hadm
    exact Or.inr ⟨hadm.1, rfl⟩
  · exact Or.inl ⟨_, r.one_le_shareOf _, rfl⟩

/-- all worker counts come from one share -/
theorem workers_eq : ∃ share, 1 ≤ share ∧ r.resolveBudget.workers = r.nodes.map (r.workersOf share) := by
  rcases r.resolveBudget_cases with ⟨share, hone, h⟩ | ⟨-, h⟩
  · exact ⟨share, hone, by rw [h]⟩
  · exact ⟨r.share, r.one_le_shareOf _, by rw [h]⟩

theorem workersAt_eq {share u : ℕ} (h : r.resolveBudget.workers = r.nodes.map (r.workersOf share))
    (hu : u < r.plan.nodes.length) : r.workersAt u = r.workersOf share (r.plan.kind u, r.opts u) := by
  unfold workersAt nodes at *
  rw [h, List.map_map]
  simp [List.getD_eq_getElem?_getD, hu]

theorem sum_table {f : ℕ → ℕ} {g : NodeKind T × NodeOpts → ℕ} (h : ∀ u < r.plan.nodes.length, f u = g (r.plan.kind u, r.opts u)) :
    ((List.range r.plan.nodes.length).map f).sum = (r.nodes.map g).sum := by
  rw [nodes, List.map_map]
  congr 1
  apply List.map_congr_left
  intro u hu
  exact h u (List.mem_range.1 hu)

/-- a sum over the walk is a sum over the node table -/
theorem sum_walk {f : ℕ → ℕ} {g : NodeKind T × NodeOpts → ℕ} (h : ∀ u < r.plan.nodes.length, f u = g (r.plan.kind u, r.opts u)) :
    (r.order.map f).sum = (r.nodes.map g).sum := by
  have hperm := (GraphPlan.validateAndOrder_ok r.accepted).perm
  rw [(hperm.map f).sum_eq]
  exact r.sum_table h

theorem length_spawns {u : ℕ} (hu : u < r.plan.nodes.length) : (r.spawns u).length = r.workersAt u := by
  obtain ⟨share, -, hw⟩ := r.workers_eq
  have hserves := r.registered u hu
  have hone := r.workersAt_eq hw hu
  unfold spawns
  cases hstep : r.spawn u <;> cases hkind : r.plan.kind u <;>
    simp_all [SpawnStep.serves, SpawnStep.dispatches, workersOf]

theorem jobs_spawns {u : ℕ} (hu : u < r.plan.nodes.length) :
    (r.spawns u).count .job = if onPool (r.plan.kind u) then r.workersAt u else 0 := by
  obtain ⟨share, -, hw⟩ := r.workers_eq
  have hserves := r.registered u hu
  have hone := r.workersAt_eq hw hu
  unfold spawns
  cases hstep : r.spawn u <;> cases hkind : r.plan.kind u <;>
    simp_all [SpawnStep.serves, SpawnStep.dispatches, workersOf, onPool, List.count_replicate]

theorem dispatches_total : r.dispatches.length = r.totalWorkers := by
  obtain ⟨share, -, hw⟩ := r.workers_eq
  unfold dispatches totalWorkers
  rw [List.length_flatMap, hw]
  apply r.sum_walk
  intro u hu
  rw [r.length_spawns hu, r.workersAt_eq hw hu]

/-- the workers that take a slot of the pool, over the node table: a feeder, a sink, a pinned or an unpinned node -/
theorem sum_onPool (share : ℕ) : (r.nodes.map fun node => if onPool node.1 then r.workersOf share node else 0).sum =
    r.feeders + r.sinks + r.pinnedWorkers + r.unpinnedDivided * share := by
  have hjobs : ∀ node : NodeKind T × NodeOpts, (if onPool node.1 then r.workersOf share node else 0) =
      Usize.GraphRun.jobsOf share node := by
    intro node
    obtain ⟨kind, opts⟩ := node
    cases kind <;> rfl
  have hunpinned : r.unpinnedDivided = (r.divided.filter fun opts => !opts.workers.isSome).length := by
    rw [unpinnedDivided, List.length_eq_length_filter_add fun opts : NodeOpts => opts.workers.isSome]
    exact Nat.add_sub_cancel_left _ _
  rw [List.map_congr_left fun node _ => hjobs node, Usize.GraphRun.sum_jobsOf, hunpinned]
  rfl

/-- the nodes whose workers take a slot of the pool -/
def poolNodes : List ℕ := (List.range r.plan.nodes.length).filter fun u => onPool (r.plan.kind u)

theorem sum_poolNodes (f : ℕ → ℕ) : (r.poolNodes.map f).sum =
    ((List.range r.plan.nodes.length).map fun u => if onPool (r.plan.kind u) then f u else 0).sum := by
  have h := List.sum_map_ite (fun u => onPool (r.plan.kind u) = true) f (fun _ => 0) (List.range r.plan.nodes.length)
  rw [h, poolNodes]
  simp

/-- **pool mode**: the lease is the sum over the nodes on the pool, within the pool, and what the walk wraps -/
theorem pool_mode (h : r.resolveBudget.dedicated = false) : r.resolveBudget.lease = some r.need ∧
    r.need ≤ r.pool.numWorkers ∧ (r.poolNodes.map r.workersAt).sum = r.need ∧ r.dispatches.count .job = r.need := by
  rcases r.resolveBudget_cases with ⟨share, -, hd⟩ | ⟨hle, hp⟩
  · rw [hd] at h
    cases h
  · have hw : r.resolveBudget.workers = r.nodes.map (r.workersOf r.share) := by rw [hp]
    have hat : ∀ u < r.plan.nodes.length, (if onPool (r.plan.kind u) then r.workersAt u else 0) =
        if onPool (r.plan.kind u) then r.workersOf r.share (r.plan.kind u, r.opts u) else 0 := by
      intro u hu
      rw [r.workersAt_eq hw hu]
    refine ⟨by rw [hp], hle, ?_, ?_⟩
    · rw [r.sum_poolNodes]
      exact (r.sum_table hat).trans (r.sum_onPool r.share)
    · unfold dispatches
      rw [List.count_flatMap]
      refine (r.sum_walk ?_).trans (r.sum_onPool r.share)
      intro u hu
      exact (r.jobs_spawns hu).trans (hat u hu)

theorem dedicated_mode (h : r.resolveBudget.dedicated = true) : r.resolveBudget.lease = none := by
  rcases r.resolveBudget_cases with ⟨share, -, hd⟩ | ⟨-, hp⟩
  · rw [hd]
  · rw [hp] at h
    cases h

theorem one_le_workersAt {u : ℕ} (hu : u < r.plan.nodes.length) : 1 ≤ r.workersAt u := by
  obtain ⟨share, hone, hw⟩ := r.workers_eq
  rw [r.workersAt_eq hw hu]
  exact r.one_le_workersOf hone _

/-- a task is only dispatched where the backend was built -/
theorem hasSpawner_of_task (h : Form.task ∈ r.dispatches) : r.hasSpawner = true := by
  obtain ⟨u, hu, hmem⟩ := List.mem_flatMap.1 h
  have hlt := ((GraphPlan.validateAndOrder_ok r.accepted).cover u).1 hu
  have hserves := r.registered u hlt
  have hasync : (r.plan.kind u).isAsync = true := by
    unfold spawns at hmem
    cases hstep : r.spawn u <;> cases hkind : r.plan.kind u <;>
      simp_all [SpawnStep.serves, SpawnStep.dispatches, NodeKind.isAsync]
  unfold hasSpawner nodes
  rw [List.any_map, List.any_eq_true]
  exact ⟨u, List.mem_range.2 hlt, hasync⟩

theorem dispatches_of_empty (h : r.plan.nodes = []) : r.dispatches = [] := by
  have hperm := (GraphPlan.validateAndOrder_ok r.accepted).perm
  rw [h] at hperm
  unfold dispatches
  rw [List.perm_nil.1 hperm]
  rfl

end GraphRun

/-! ## The invariant -/

section Invariant

variable {T P : Type} {r : GraphRun T} {s s' : St P}

/-- what the walk has yet to dispatch -/
def Main.pending (r : GraphRun T) : Main → List Form
  | .walk left nodes => left ++ nodes.flatMap r.spawns
  | _ => []

/-- the job has taken one off the counter -/
def Job.isFinished : Job P → Bool
  | .finished _ => true
  | _ => false

/-- the panic of the job is in the slot -/
def Job.isRecorded : Job P → Bool
  | .recorded => true
  | .ended .unwound => true
  | .finished .unwound => true
  | _ => false

structure Inv (r : GraphRun T) (s : St P) : Prop where
  /-- dispatched and pending are what the walk dispatches -/
  walk : s.jobs.map Prod.fst ++ s.main.pending r = r.dispatches
  counter : s.count + s.decs.length = r.totalWorkers
  once : s.decs.Nodup
  finished : ∀ j, j ∈ s.decs ↔ ∃ f job, s.jobs[j]? = some (f, job) ∧ job.isFinished = true
  sound : s.saturated = false
  parked : s.main = .parked → 0 < s.count
  returned : s.main = .returned → s.count = 0
  spawner : s.main ≠ .noSpawner
  lease : ∀ l, s.lease = some l →
    r.resolveBudget = ⟨false, some l.reserved, r.resolveBudget.workers⟩ ∧ l.spawned = (s.jobs.map Prod.fst).count .job
  panics : ∀ f job, (f, job) ∈ s.jobs → job.isRecorded = true → s.panic.isSome = true

theorem init_inv : Inv r (init r : St P) := by
  unfold init
  split_ifs with h
  · have hnone := r.dispatches_of_empty h
    have htotal := r.dispatches_total
    rw [hnone] at htotal
    exact ⟨hnone.symm, htotal, List.nodup_nil, by simp, rfl, by simp, fun _ => rfl, by simp, by simp, by simp⟩
  · refine ⟨rfl, rfl, List.nodup_nil, by simp, rfl, by simp, by simp, by simp, ?_, by simp⟩
    intro l hl
    rcases r.resolveBudget_cases with ⟨share, -, hd⟩ | ⟨-, hp⟩
    · rw [hd] at hl
      cases hl
    · rw [hp] at hl ⊢
      cases hl
      exact ⟨rfl, rfl⟩

/-! ## The jobs -/

theorem getElem?_setJob {A : Type} {l : List A} {j : ℕ} {x : A} (h : l[j]? = some x) (y : A) (i : ℕ) :
    (l.set j y)[i]? = if i = j then some y else l[i]? := by
  obtain ⟨hlt, -⟩ := List.getElem?_eq_some_iff.1 h
  rw [List.getElem?_set]
  by_cases hi : j = i
  · rw [if_pos hi, if_pos hi.symm, if_pos hlt]
  · rw [if_neg hi, if_neg (Ne.symm hi)]

theorem forms_set {j : ℕ} {f : Form} {a : Job P} {jobs : List (Form × Job P)} (h : jobs[j]? = some (f, a)) (b : Job P) :
    (jobs.set j (f, b)).map Prod.fst = jobs.map Prod.fst := by
  apply List.ext_getElem?
  intro i
  rw [List.getElem?_map, List.getElem?_map, getElem?_setJob h]
  split_ifs with hi
  · rw [hi, h]
    rfl
  · rfl

/-- who counts as recorded after one job moved on -/
theorem recorded_set {j : ℕ} {f : Form} {a b : Job P} {panic panic' : Option P} {jobs : List (Form × Job P)}
    (h : ∀ g job, (g, job) ∈ jobs → job.isRecorded = true → panic.isSome = true) (hj : jobs[j]? = some (f, a))
    (hkeep : panic.isSome = true → panic'.isSome = true)
    (hrec : b.isRecorded = true → a.isRecorded = true ∨ panic'.isSome = true) :
    ∀ g job, (g, job) ∈ jobs.set j (f, b) → job.isRecorded = true → panic'.isSome = true := by
  intro g job hmem hjob
  rcases List.mem_or_eq_of_mem_set hmem with hold | heq
  · exact hkeep (h g job hold hjob)
  · cases heq
    rcases hrec hjob with ha | hp
    · exact hkeep (h f a (List.mem_of_getElem? hj) ha)
    · exact hp

/-- a step of one job on its way to `dec`: the counter is not involved -/
theorem Inv.setJob {j : ℕ} {f : Form} {a b : Job P} {panic : Option P} {cancelled : Bool} (h : Inv r s)
    (hj : s.jobs[j]? = some (f, a)) (ha : a.isFinished = false) (hb : b.isFinished = false)
    (hkeep : s.panic.isSome = true → panic.isSome = true)
    (hrec : b.isRecorded = true → a.isRecorded = true ∨ panic.isSome = true) :
    Inv r { s.setJob j f b with panic := panic, cancelled := cancelled } := by
  have hforms : (s.jobs.set j (f, b)).map Prod.fst = s.jobs.map Prod.fst := forms_set hj b
  refine ⟨?_, h.counter, h.once, ?_, h.sound, h.parked, h.returned, h.spawner, ?_, recorded_set h.panics hj hkeep hrec⟩
  · change (s.jobs.set j (f, b)).map Prod.fst ++ s.main.pending r = r.dispatches
    rw [hforms]
    exact h.walk
  · intro i
    refine (h.finished i).trans ?_
    simp only [St.setJob, getElem?_setJob hj]
    by_cases hi : i = j
    · subst hi
      simp [hj, ha, hb]
    · simp [hi]
  · intro l hl
    simp only [St.setJob, hforms]
    exact h.lease l hl

/-- a job in front of `dec` has not taken its one off yet -/
theorem Inv.notMem {j : ℕ} {f : Form} {a : Job P} (h : Inv r s) (hj : s.jobs[j]? = some (f, a)) (ha : a.isFinished = false) :
    j ∉ s.decs := by
  intro hmem
  obtain ⟨f', job, hget, hfin⟩ := (h.finished j).1 hmem
  rw [hj] at hget
  cases hget
  rw [ha] at hfin
  cases hfin

theorem Inv.decs_lt (h : Inv r s) {j : ℕ} (hj : j ∈ s.decs) : j < s.jobs.length := by
  obtain ⟨f, job, hget, -⟩ := (h.finished j).1 hj
  exact (List.getElem?_eq_some_iff.1 hget).1

theorem Inv.dispatched_le (h : Inv r s) : s.jobs.length + (s.main.pending r).length = r.totalWorkers := by
  have hlen := congrArg List.length h.walk
  rw [List.length_append, List.length_map, r.dispatches_total] at hlen
  exact hlen

/-- the counter is above zero while a dispatched job has not taken its one off -/
theorem Inv.count_pos {j : ℕ} {f : Form} {a : Job P} (h : Inv r s) (hj : s.jobs[j]? = some (f, a)) (ha : a.isFinished = false) :
    0 < s.count := by
  have hlt := (List.getElem?_eq_some_iff.1 hj).1
  have hsub : (j :: s.decs).length ≤ (List.range s.jobs.length).length := by
    apply (List.subperm_of_subset (List.nodup_cons.2 ⟨h.notMem hj ha, h.once⟩) ?_).length_le
    intro i hi
    rcases List.mem_cons.1 hi with rfl | hi
    · exact List.mem_range.2 hlt
    · exact List.mem_range.2 (h.decs_lt hi)
  have hle := h.dispatched_le
  have hcount := h.counter
  rw [List.length_cons, List.length_range] at hsub
  omega

/-- with the count at zero and nothing left to dispatch, every job has finished -/
theorem Inv.all_finished (h : Inv r s) (h0 : s.count = 0) {f : Form} {job : Job P} (hmem : (f, job) ∈ s.jobs) :
    job.isFinished = true := by
  obtain ⟨j, hj⟩ := List.mem_iff_getElem?.1 hmem
  by_contra hne
  have hpos := h.count_pos hj (by simpa using hne)
  omega

/-- only the last `dec` touches the main thread, from the condition variable to the test -/
theorem dec_main (r : GraphRun T) (s : St P) (j : ℕ) : (s.dec j).main.pending r = s.main.pending r ∧
    ((s.dec j).main = .parked → (s.dec j).count ≠ 0) ∧ ((s.dec j).main = s.main ∨ (s.dec j).main = .testing) := by
  simp only [St.dec]
  split_ifs with h0
  · cases s.main <;> simp [Main.notified, Main.pending]
  · exact ⟨rfl, fun _ => h0, Or.inl rfl⟩

theorem Inv.dec {j : ℕ} {f : Form} {how : Exit} (h : Inv r s) (hj : s.jobs[j]? = some (f, .ended how)) :
    Inv r ((s.setJob j f (.finished how)).dec j) := by
  have hpos := h.count_pos hj rfl
  have hforms : (s.jobs.set j (f, .finished how)).map Prod.fst = s.jobs.map Prod.fst := forms_set hj _
  obtain ⟨hmain, hparked, hkept⟩ := dec_main r (s.setJob j f (.finished how)) j
  refine ⟨?_, ?_, ?_, ?_, ?_, ?_, ?_, ?_, ?_, ?_⟩
  · rw [hmain]
    change (s.jobs.set j (f, .finished how)).map Prod.fst ++ s.main.pending r = _
    rw [hforms]
    exact h.walk
  · have hcount := h.counter
    simp only [St.dec, St.setJob, List.length_append, List.length_singleton]
    omega
  · simp only [St.dec, St.setJob]
    exact List.nodup_append.2 ⟨h.once, List.nodup_singleton j, by
      intro i hi k hk
      rw [List.mem_singleton.1 hk]
      exact fun heq => h.notMem hj rfl (heq ▸ hi)⟩
  · intro i
    simp only [St.dec, St.setJob, List.mem_append, List.mem_singleton, getElem?_setJob hj]
    by_cases hi : i = j
    · simp [hi, Job.isFinished]
    · simp [hi, h.finished i]
  · simp only [St.dec, St.setJob, h.sound, Bool.false_or, decide_eq_false_iff_not]
    omega
  · intro hm
    exact Nat.pos_of_ne_zero (hparked hm)
  · intro hm
    rcases hkept with hk | hk
    · have h0 := h.returned (hk.symm.trans hm)
      omega
    · rw [hk] at hm
      cases hm
  · intro hm
    rcases hkept with hk | hk
    · exact h.spawner (hk.symm.trans hm)
    · rw [hk] at hm
      cases hm
  · intro l hl
    simp only [St.dec, St.setJob, hforms]
    exact h.lease l hl
  · apply recorded_set h.panics hj id
    intro hrec
    cases how
    · cases hrec
    · exact Or.inl rfl

/-! ## The main thread -/

/-- a step of the main thread that dispatches nothing -/
theorem Inv.setMain {m : Main} (h : Inv r s) (hpending : m.pending r = s.main.pending r) (hparked : m = .parked → 0 < s.count)
    (hreturned : m = .returned → s.count = 0) (hspawner : m ≠ .noSpawner) : Inv r { s with main := m } := by
  refine ⟨?_, h.counter, h.once, h.finished, h.sound, hparked, hreturned, hspawner, h.lease, h.panics⟩
  change s.jobs.map Prod.fst ++ m.pending r = r.dispatches
  rw [hpending]
  exact h.walk

/-- a job or task enters the run queued -/
theorem Inv.push {f : Form} {left : List Form} {nodes : List ℕ} {lease : Option Lease} (h : Inv r s)
    (hm : s.main = .walk (f :: left) nodes)
    (hlease : ∀ l, lease = some l → r.resolveBudget = ⟨false, some l.reserved, r.resolveBudget.workers⟩ ∧
      l.spawned = (s.jobs.map Prod.fst ++ [f]).count .job) :
    Inv r { s with lease := lease, jobs := s.jobs ++ [(f, .queued)], main := .walk left nodes } := by
  refine ⟨?_, h.counter, h.once, ?_, h.sound, by simp, by simp, by simp, ?_, ?_⟩
  · have hwalk := h.walk
    rw [hm] at hwalk
    simpa [Main.pending] using hwalk
  · intro j
    refine (h.finished j).trans ?_
    dsimp only
    rcases Nat.lt_or_ge j s.jobs.length with hlt | hge
    · rw [List.getElem?_append_left hlt]
    · rw [List.getElem?_append_right hge, List.getElem?_eq_none hge]
      rcases hd : j - s.jobs.length with _ | k <;> simp [Job.isFinished]
  · intro l hl
    dsimp only
    rw [List.map_append]
    exact hlease l hl
  · intro g job hmem hrec
    rcases List.mem_append.1 hmem with hold | hnew
    · exact h.panics g job hold hrec
    · cases List.mem_singleton.1 hnew
      cases hrec

theorem Inv.dispatch {f : Form} {left : List Form} {nodes : List ℕ} (h : Inv r s) (hm : s.main = .walk (f :: left) nodes) :
    Inv r (s.dispatch r left nodes f) := by
  cases f with
  | job =>
    refine h.push hm ?_
    intro l hl
    split_ifs at hl with hd
    · have hold := (h.lease l hl).1
      rw [hold] at hd
      cases hd
    · obtain ⟨l0, hl0, rfl⟩ := Option.map_eq_some_iff.1 hl
      obtain ⟨hres, hspawned⟩ := h.lease l0 hl0
      refine ⟨hres, ?_⟩
      simp [hspawned]
  | task =>
    have htask : Form.task ∈ r.dispatches := by
      rw [← h.walk, hm]
      exact List.mem_append_right _ List.mem_cons_self
    simp only [St.dispatch, r.hasSpawner_of_task htask, if_true]
    refine h.push hm ?_
    intro l hl
    obtain ⟨hres, hspawned⟩ := h.lease l hl
    refine ⟨hres, ?_⟩
    simp [hspawned]

/-! ## Runs -/

theorem step_inv {a : Act P} (h : Inv r s) (hs : step r s a = some s') : Inv r s' := by
  cases a with
  | nextNode =>
    simp only [step] at hs
    split at hs
    · next u nodes hm =>
      cases hs
      exact h.setMain (by rw [hm]; simp [Main.pending]) (by simp) (by simp) (by simp)
    · cases hs
  | dispatch =>
    simp only [step] at hs
    split at hs
    · next f left nodes hm =>
      cases hs
      exact h.dispatch hm
    · cases hs
  | endWalk =>
    simp only [step] at hs
    split at hs
    · next hm =>
      cases hs
      exact h.setMain (by rw [hm]; rfl) (by simp) (by simp) (by simp)
    · cases hs
  | test =>
    simp only [step] at hs
    split at hs
    · next hm =>
      cases hs
      refine h.setMain ?_ ?_ ?_ ?_
      · rw [hm]
        split_ifs <;> rfl
      · intro heq
        split_ifs at heq with hpos
        exact hpos
      · intro heq
        split_ifs at heq with hpos
        omega
      · split_ifs <;> simp
    · cases hs
  | wake =>
    simp only [step] at hs
    split at hs
    · next hm =>
      cases hs
      exact h.setMain (by rw [hm]; rfl) (by simp) (by simp) (by simp)
    · cases hs
  | start j =>
    simp only [step] at hs
    split at hs
    · next f hj =>
      cases hs
      exact h.setJob hj rfl rfl id (by simp [Job.isRecorded])
    · cases hs
  | exit j payload =>
    simp only [step] at hs
    split at hs
    · next f hj =>
      rcases payload with _ | p
      · cases hs
        exact h.setJob hj rfl rfl id (by simp [Job.isRecorded])
      · cases hs
        exact h.setJob hj rfl rfl id (by simp [Job.isRecorded])
    · cases hs
  | record j =>
    simp only [step] at hs
    split at hs
    · next f p hj =>
      cases hs
      have hsome : (s.panic <|> some p).isSome = true := by
        cases s.panic <;> rfl
      exact h.setJob hj rfl rfl (fun _ => hsome) fun _ => Or.inr hsome
    · cases hs
  | cancel j =>
    simp only [step] at hs
    split at hs
    · next f hj =>
      cases hs
      exact h.setJob hj rfl rfl id fun _ => Or.inl rfl
    · cases hs
  | dec j =>
    simp only [step] at hs
    split at hs
    · next f how hj =>
      cases hs
      exact h.dec hj
    · cases hs

theorem run_inv {acts : List (Act P)} (h : Inv r s) (hr : run r s acts = some s') : Inv r s' :=
  Machine.run_keeps (fun _ h hs => step_inv h hs) h hr

end Invariant

def St.finishedAt {P : Type} (s : St P) (j : ℕ) : Bool := s.jobs[j]?.any fun job => job.2.isFinished

/-- the accounts of a state of the run -/
structure Accounted {T P : Type} (r : GraphRun T) (s : St P) : Prop where
  /-- the lease wraps no more than it reserved, and all of it by the end of the walk -/
  wrapped : ∀ l, s.lease = some l → l.spawned ≤ l.reserved ∧ (s.main.pending r = [] → l.spawned = l.reserved)
  counter : s.count + s.decs.length = r.totalWorkers
  /-- exactly the finished have taken one off, once each -/
  once : ∀ j, s.decs.count j = if s.finishedAt j then 1 else 0
  sound : s.saturated = false
  /-- `wait` returns only when the whole walk has been dispatched and has finished, with its panics recorded -/
  waits : s.main = .returned → s.jobs.map Prod.fst = r.dispatches ∧ (∀ f job, (f, job) ∈ s.jobs → job.isFinished = true) ∧
    ∀ f, (f, Job.finished .unwound) ∈ s.jobs → s.panic.isSome = true
  /-- and it does return then: the main thread is not left on the condition variable -/
  wakes : s.main.pending r = [] → (∀ f job, (f, job) ∈ s.jobs → job.isFinished = true) → s.count = 0 ∧ s.main ≠ .parked

theorem Inv.accounted {T P : Type} {r : GraphRun T} {s : St P} (h : Inv r s) : Accounted r s := by
  have hcount : ∀ l, s.lease = some l → l.reserved = l.spawned + (s.main.pending r).count .job := by
    intro l hl
    obtain ⟨hres, hspawned⟩ := h.lease l hl
    have hmode := r.pool_mode (by rw [hres])
    have hneed : l.reserved = r.need := by
      have hlease := hmode.1
      rw [hres] at hlease
      exact Option.some.inj hlease
    rw [hneed, ← hmode.2.2.2, ← h.walk, List.count_append, hspawned]
  refine ⟨?_, h.counter, ?_, h.sound, ?_, ?_⟩
  · intro l hl
    have hl' := hcount l hl
    refine ⟨by omega, ?_⟩
    intro hpending
    rw [hpending] at hl'
    exact hl'.symm
  · intro j
    rw [h.once.count]
    have hiff : j ∈ s.decs ↔ s.finishedAt j = true := by
      rw [h.finished j]
      unfold St.finishedAt
      rcases s.jobs[j]? with _ | ⟨f, job⟩
      · simp
      · simp
    simp only [hiff]
  · intro hm
    have hwalk := h.walk
    rw [hm] at hwalk
    change s.jobs.map Prod.fst ++ [] = r.dispatches at hwalk
    rw [List.append_nil] at hwalk
    refine ⟨hwalk, fun f job hmem => h.all_finished (h.returned hm) hmem, ?_⟩
    intro f hmem
    exact h.panics f _ hmem rfl
  · intro hpending hall
    have hle := h.dispatched_le
    have htotal := h.counter
    rw [hpending, List.length_nil, Nat.add_zero] at hle
    have hsub : (List.range s.jobs.length).length ≤ s.decs.length := by
      apply (List.subperm_of_subset List.nodup_range ?_).length_le
      intro j hj
      have hlt := List.mem_range.1 hj
      exact (h.finished j).2 ⟨_, _, List.getElem?_eq_getElem hlt, hall _ _ (List.getElem_mem hlt)⟩
    rw [List.length_range] at hsub
    have h0 : s.count = 0 := by omega
    refine ⟨h0, ?_⟩
    intro hm
    have hpos := h.parked hm
    omega

/-- a source, a sync node of two workers, an async node of two tasks, a sink -/
def chainPlan : GraphPlan ℕ where
  nodes := [⟨"numbers", .source, .move⟩, ⟨"double", .sync fun x => x + x, .move⟩, ⟨"fetch", .async fun x => x, .move⟩, ⟨"out", .sink, .move⟩]
  edges := [⟨0, 1⟩, ⟨1, 2⟩, ⟨2, 3⟩]
  bound := by decide

def chainStep : ℕ → SpawnStep
  | 0 => .source
  | 1 => .node
  | 2 => .nodeAsync
  | _ => .sink

theorem chain_accepted : chainPlan.validateAndOrder = .ok [0, 1, 2, 3] := by rfl

theorem chain_registered : ∀ u < chainPlan.nodes.length, (chainStep u).serves (chainPlan.kind u) = true := by decide

/-- the chain on an idle pool of eight workers -/
def chainRun : GraphRun ℕ where
  plan := chainPlan
  order := [0, 1, 2, 3]
  opts := fun u => if u = 1 then ⟨some 2, none⟩ else if u = 2 then ⟨none, some 2⟩ else ⟨none, none⟩
  spawn := chainStep
  config := ⟨64, 8, false⟩
  ioConcurrency := 128
  pool := ⟨8, false, 0, fun k => k ≤ 8⟩
  accepted := chain_accepted
  registered := chain_registered

/-- a returning body from its start to its `dec` -/
def returns (j : ℕ) : List (Act ℕ) := [.start j, .exit j none, .dec j]

/-- the source is done before the walk has come to the next node; the first worker panics; the main thread parks -/
def chainActs : List (Act ℕ) :=
  ([.nextNode, .dispatch] : List (Act ℕ)) ++ returns 0 ++ ([.nextNode, .dispatch, .dispatch, .start 1, .nextNode, .dispatch,
    .dispatch, .nextNode, .dispatch, .endWalk, .test, .exit 1 (some 7), .record 1, .wake, .cancel 1, .test, .dec 1] : List (Act ℕ)) ++
    returns 5 ++ returns 4 ++ returns 3 ++ returns 2 ++ ([.test] : List (Act ℕ))

end YouPipe.Completion
