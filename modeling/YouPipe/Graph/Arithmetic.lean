/-
The arithmetic of a graph run's admission in machine words (`resolve_budget` and the spawn walk in `graph/exec.rs`), and the
result for both engines.

As in `Stream/Arithmetic.lean`, the sum of the pins, `need` and the never-spawned remainder are `Tracked` words; the sum inside
`live` wraps silently. Nodes are counted from a `Vec` of records, so there are fewer than 2^60. A graph keeps no in-flight
estimate. The buffer pins and the completion counter are left out: nothing here reads them.

Results:
- `runGraph_in_range`: all marks of a graph run are down, and pins above the pool mean threads, exactly under `GraphRun.Fits`;
- `admission_in_range`: the same for every streaming run and every graph run;
- `huge_pins`: two pins of 2^63 cancel out, and the run is admitted to a pool of four workers.
-/
import Mathlib.Tactic
import YouPipe.Core.Tracked
import YouPipe.Graph.Plan
import YouPipe.Stream.Arithmetic

namespace YouPipe.Usize

open YouPipe.Word YouPipe.Admit YouPipe.Graph

/-! ## The budget -/

structure NodeOpts where
  workers : Option ℕ+
  ioConcurrency : Option ℕ+

/-- the sync nodes whose worker count the budget divides -/
def isDivided {T : Type} : NodeKind T → Bool
  | .sync _ => true
  | .expand _ => true
  | _ => false

/-- `NodeKind::Source`: a feeder on the pool -/
def isFeeder {T : Type} : NodeKind T → Bool
  | .source => true
  | _ => false

/-- the inputs of `run_graph`: an accepted plan with its options, the configuration, the pool -/
structure GraphRun (T : Type) where
  plan : GraphPlan T
  opts : ℕ → NodeOpts
  order : List ℕ
  config : PipelineConfig
  ioConcurrency : ℕ
  pool : Pool
  accepted : plan.validateAndOrder = .ok order
  fits : plan.nodes.length < 2 ^ 60

/-- `RunPlan`, with the sum it was decided on; 0 where the code does not compute it -/
structure RunPlan where
  need : Tracked
  lease : Option Tracked
  dedicated : Bool
  workers : ℕ → ℕ

/-- every tracked number of a graph run, and how it was admitted -/
structure GraphLedger where
  pinnedWorkers : Tracked
  need : Tracked
  remainder : Tracked
  dedicated : Bool
  reserved : Option ℕ

namespace GraphRun

variable {T : Type} (run : GraphRun T)

def nodes : List (NodeKind T × NodeOpts) := (List.range run.plan.nodes.length).map fun u => (run.plan.kind u, run.opts u)

def feeders : ℕ := (run.nodes.filter fun node => isFeeder node.1).length

def sinks : ℕ := (run.nodes.filter fun node => node.1.isSink).length

def divided : List NodeOpts := (run.nodes.filter fun node => isDivided node.1).map Prod.snd

def pinnedWorkers : Tracked := (run.divided.filterMap NodeOpts.workers).foldl (fun sum (w : ℕ+) => sum + Tracked.of w) (Tracked.of 0)

def unpinnedDivided : ℕ := run.divided.length - (run.divided.filter fun opts => opts.workers.isSome).length

def shareOf (budget : ℕ) : ℕ :=
  if run.unpinnedDivided = 0 then 1 else max ((budget - run.pinnedWorkers.val) / run.unpinnedDivided) 1

/-- the share of a run on the pool, from the live slots of the snapshot -/
def share : ℕ :=
  let live := run.pool.numWorkers - wrappingAdd (wrappingAdd run.pool.parkingUsed run.feeders) run.sinks
  run.shareOf (min (workersBudget run.config run.pool.toPoolView) live)

def need : Tracked :=
  Tracked.of run.feeders + Tracked.of run.sinks + run.pinnedWorkers + Tracked.of run.unpinnedDivided * Tracked.of run.share

/-- the worker count of a node, or the task fan-out of an async one -/
def workers (share : ℕ) (u : ℕ) : ℕ :=
  match run.plan.kind u with
  | .sync _ => ((run.opts u).workers.map PNat.val).getD share
  | .expand _ => ((run.opts u).workers.map PNat.val).getD share
  | .async _ => ((run.opts u).ioConcurrency.map PNat.val).getD run.ioConcurrency
  | _ => 1

def resolveBudget : RunPlan :=
  let fallback := run.shareOf (workersBudget run.config run.pool.toPoolView)
  if run.pool.isOnThisPool then ⟨Tracked.of 0, none, true, run.workers fallback⟩
  else if run.need.val ≤ run.pool.numWorkers && run.pool.tryReserveParking run.need.val then
    ⟨run.need, some run.need, false, run.workers run.share⟩
  else ⟨run.need, none, true, run.workers fallback⟩

/-- the jobs that the spawn step of a node dispatches; async producers are tasks of the runtime -/
def dispatched (workers : ℕ → ℕ) (u : ℕ) : ℕ :=
  match run.plan.kind u with
  | .source => 1
  | .sync _ => workers u
  | .expand _ => workers u
  | .sink => 1
  | .async _ => 0
  | .sourceAsync => 0

/-- the jobs wrapped through the lease on the walk in topological order -/
def spawned (workers : ℕ → ℕ) : Tracked :=
  run.order.foldl (fun sum u => sum + Tracked.of (run.dispatched workers u)) (Tracked.of 0)

/-- `run_graph` up to the drop of its lease -/
def runGraph : GraphLedger :=
  let plan := run.resolveBudget
  ⟨run.pinnedWorkers, plan.need, dropLease plan.lease (run.spawned plan.workers), plan.dedicated, plan.lease.map Tracked.val⟩

/-! ## The exact side -/

/-- the sum of the pins -/
def pinned : ℕ := ((run.divided.filterMap NodeOpts.workers).map PNat.val).sum

/-- the divided nodes as the stages of a streaming budget: the share divides as `StageBudget::default_workers` does -/
def exactBudget : StageBudget :=
  ⟨run.divided.length, 0, (run.divided.filter fun opts => opts.workers.isSome).length, run.pinned⟩

/-- the share that the pins leave, over exact naturals -/
def exactShare : ℕ :=
  let live := run.pool.numWorkers - (run.pool.parkingUsed + run.feeders + run.sinks)
  run.exactBudget.defaultWorkers (min (workersBudget run.config run.pool.toPoolView) live)

def exactNeed : ℕ := run.feeders + run.sinks + run.pinned + run.unpinnedDivided * run.exactShare

/-- **When the arithmetic is right**: the feeders, the sinks, all pins and one worker for each unpinned node add up to a word
(on a worker of the pool: the pins alone) -/
structure Fits : Prop where
  pins : run.pinned < word
  need : run.pool.isOnThisPool = false → run.feeders + run.sinks + run.pinned + run.unpinnedDivided < word

/-! ## The budget in words -/

theorem pinned_tracks : Tracks run.pinnedWorkers run.pinned := by
  have h := Tracks.foldl PNat.val (run.divided.filterMap NodeOpts.workers) (tracks_of 0)
  rw [Nat.zero_add] at h
  exact h

theorem counts_le : run.feeders ≤ run.plan.nodes.length ∧ run.sinks ≤ run.plan.nodes.length ∧
    run.unpinnedDivided ≤ run.plan.nodes.length := by
  have hlen : run.nodes.length = run.plan.nodes.length := by simp [nodes]
  refine ⟨?_, ?_, ?_⟩
  · rw [← hlen]
    exact List.length_filter_le _ _
  · rw [← hlen]
    exact List.length_filter_le _ _
  · calc run.unpinnedDivided ≤ run.divided.length := Nat.sub_le _ _
      _ ≤ run.nodes.length := by
          rw [divided, List.length_map]
          exact List.length_filter_le _ _
      _ = run.plan.nodes.length := hlen

theorem share_exact (hp : run.pinned < word) : run.share = run.exactShare := by
  obtain ⟨hf, hs, -⟩ := run.counts_le
  have hfits := run.fits
  have hused := run.pool.used_le
  have hmax := run.pool.le_max
  have hword : 2 ^ 61 + 512 < word := by decide
  simp only [share, exactShare, shareOf, StageBudget.defaultWorkers, exactBudget, unpinnedDivided, run.pinned_tracks.eq hp]
  rw [wrappingAdd_of_lt (by omega : run.pool.parkingUsed + run.feeders < word), wrappingAdd_of_lt (by omega)]
  rfl

theorem exactShare_spec : 1 ≤ run.exactShare ∧ run.unpinnedDivided * run.exactShare ≤ max (511 - run.pinned) run.unpinnedDivided := by
  have hmax := run.pool.le_max
  have hmul := defaultWorkers_mul_le run.exactBudget (min (workersBudget run.config run.pool.toPoolView)
    (run.pool.numWorkers - (run.pool.parkingUsed + run.feeders + run.sinks)))
  refine ⟨one_le_defaultWorkers _ _, hmul.trans (max_le_max ?_ le_rfl)⟩
  change _ - run.pinned ≤ 511 - run.pinned
  omega

theorem exactShare_le : run.exactShare ≤ 511 := by
  have hmax := run.pool.le_max
  unfold exactShare StageBudget.defaultWorkers
  dsimp only
  split_ifs
  · norm_num
  · refine max_le ((Nat.div_le_self _ _).trans ?_) (by norm_num)
    omega

theorem need_tracks (hp : run.pinned < word) : Tracks run.need run.exactNeed := by
  obtain ⟨-, -, hu⟩ := run.counts_le
  have hfits := run.fits
  have hword : 2 ^ 60 + 511 < word := by decide
  have hle := run.exactShare_le
  rw [need, exactNeed, run.share_exact hp]
  refine (((tracks_of _).add (tracks_of _)).add run.pinned_tracks).add ((tracks_of _).mul (tracks_of _) ?_ ?_)
  · intro _
    omega
  · intro _
    omega

/-- whether the exact sum is a word is decided by the pins and one worker for each unpinned node -/
theorem exactNeed_lt_iff : run.exactNeed < word ↔ run.feeders + run.sinks + run.pinned + run.unpinnedDivided < word := by
  obtain ⟨hone, hhigh⟩ := run.exactShare_spec
  have hlow : run.unpinnedDivided ≤ run.unpinnedDivided * run.exactShare := Nat.le_mul_of_pos_right _ hone
  obtain ⟨hf, hs, hu⟩ := run.counts_le
  have hfits := run.fits
  have hword : 3 * 2 ^ 60 + 1024 < word := by decide
  unfold exactNeed
  constructor
  · intro h
    omega
  · intro h
    rcases Nat.lt_or_ge run.pinned 511 with hlt | hge
    · omega
    · rw [Nat.sub_eq_zero_of_le hge, Nat.zero_max] at hhigh
      omega

/-! ## The walk -/

/-- the jobs of a node with its options -/
def jobsOf (share : ℕ) (node : NodeKind T × NodeOpts) : ℕ :=
  if isDivided node.1 then (node.2.workers.map PNat.val).getD share else if isFeeder node.1 || node.1.isSink then 1 else 0

theorem dispatched_eq (share u : ℕ) : run.dispatched (run.workers share) u = jobsOf share (run.plan.kind u, run.opts u) := by
  unfold dispatched workers jobsOf
  cases run.plan.kind u <;> rfl

/-- a node is at most one of: divided, a feeder, a sink -/
theorem kinds_apart (kind : NodeKind T) : (isDivided kind = true → isFeeder kind = false ∧ kind.isSink = false) ∧
    (isFeeder kind = true → kind.isSink = false) := by
  cases kind <;> simp [isDivided, isFeeder, NodeKind.isSink]

/-- the jobs of all nodes, by induction on the node table: each is a feeder, a sink, a pinned or an unpinned node, or none -/
theorem sum_jobsOf (share : ℕ) (nodes : List (NodeKind T × NodeOpts)) : (nodes.map (jobsOf share)).sum =
    (nodes.filter fun node => isFeeder node.1).length + (nodes.filter fun node => node.1.isSink).length +
      ((((nodes.filter fun node => isDivided node.1).map Prod.snd).filterMap NodeOpts.workers).map PNat.val).sum +
      (((nodes.filter fun node => isDivided node.1).map Prod.snd).filter fun opts => !opts.workers.isSome).length * share := by
  induction nodes with
  | nil => simp
  | cons node nodes ih =>
    obtain ⟨kind, opts⟩ := node
    obtain ⟨hdiv, hfeed⟩ := kinds_apart kind
    rw [List.map_cons, List.sum_cons, ih]
    by_cases hd : isDivided kind = true
    · obtain ⟨hf, hs⟩ := hdiv hd
      rcases hw : opts.workers with _ | w
      · simp only [jobsOf, hd, hf, hs, hw, List.filter_cons, List.map_cons, List.filterMap_cons, if_true, Bool.false_eq_true,
          if_false, Option.map_none, Option.getD_none, Option.isSome_none, Bool.not_false, List.length_cons, Nat.succ_mul]
        omega
      · simp only [jobsOf, hd, hf, hs, hw, List.filter_cons, List.map_cons, List.filterMap_cons, if_true, Bool.false_eq_true,
          if_false, Option.map_some, Option.getD_some, Option.isSome_some, Bool.not_true, List.sum_cons]
        omega
    · by_cases hf : isFeeder kind = true
      · simp only [jobsOf, hd, hf, hfeed hf, List.filter_cons, Bool.true_or, if_true, Bool.false_eq_true, if_false, List.length_cons]
        omega
      · by_cases hs : kind.isSink = true
        · simp only [jobsOf, hd, hf, hs, List.filter_cons, Bool.or_true, if_true, Bool.false_eq_true, if_false, List.length_cons]
          omega
        · simp only [jobsOf, hd, hf, hs, List.filter_cons, Bool.or_false, Bool.false_eq_true, if_false, Nat.zero_add]

theorem unpinnedDivided_eq : run.unpinnedDivided = (run.divided.filter fun opts => !opts.workers.isSome).length := by
  rw [unpinnedDivided, List.length_eq_length_filter_add fun opts : NodeOpts => opts.workers.isSome]
  exact Nat.add_sub_cancel_left _ _

/-- the walk visits every node once, so its jobs are those of the node table -/
theorem spawned_tracks (share : ℕ) : Tracks (run.spawned (run.workers share))
    (run.feeders + run.sinks + run.pinned + run.unpinnedDivided * share) := by
  have hperm := (GraphPlan.validateAndOrder_ok run.accepted).perm
  have hfold := Tracks.foldl (run.dispatched (run.workers share)) run.order (tracks_of 0)
  have hsum : (run.order.map (run.dispatched (run.workers share))).sum = (run.nodes.map (jobsOf share)).sum := by
    rw [(hperm.map _).sum_eq, nodes, List.map_map]
    congr 1
    apply List.map_congr_left
    intro u _
    exact run.dispatched_eq share u
  rw [Nat.zero_add, hsum, sum_jobsOf] at hfold
  rw [unpinnedDivided_eq]
  exact hfold

/-! ## A graph run in words -/

end GraphRun

/-- no tracked number of the run carries a mark -/
structure GraphLedger.InRange (l : GraphLedger) : Prop where
  pinnedWorkers : l.pinnedWorkers.wrapped = false
  need : l.need.wrapped = false
  remainder : l.remainder.wrapped = false

namespace GraphRun

variable {T : Type} (run : GraphRun T)

/-- pins above the pool mean threads, and no lease -/
def FallsBack (l : GraphLedger) : Prop := run.pool.numWorkers < run.pinned → l.dedicated = true ∧ l.reserved = none

/-- **A run whose pins and `need` are words**: the walk uses up the reservation, and pins above the pool mean threads -/
theorem runGraph_spec (hp : run.pinned < word) (hneed : run.pool.isOnThisPool = true ∨ run.exactNeed < word) :
    run.runGraph.InRange ∧ run.FallsBack run.runGraph := by
  have hpins := run.pinned_tracks.mark.2 hp
  by_cases hon : run.pool.isOnThisPool = true
  · have hrun : run.runGraph = ⟨run.pinnedWorkers, Tracked.of 0, Tracked.of 0, true, none⟩ := by
      simp only [runGraph, resolveBudget, hon, if_true]
      rfl
    rw [hrun]
    exact ⟨⟨hpins, rfl, rfl⟩, fun _ => ⟨rfl, rfl⟩⟩
  · have hlt := hneed.resolve_left hon
    have hval := (run.need_tracks hp).eq hlt
    by_cases hadm : (run.need.val ≤ run.pool.numWorkers && run.pool.tryReserveParking run.need.val) = true
    · have hrun : run.runGraph = ⟨run.pinnedWorkers, run.need, run.need - run.spawned (run.workers run.share), false,
          some run.need.val⟩ := by
        simp only [runGraph, resolveBudget, hon, hadm, if_true]
        rfl
      have hspawned : run.spawned (run.workers run.share) = Tracked.of run.exactNeed := by
        rw [run.share_exact hp, of_exact hlt]
        exact (run.spawned_tracks run.exactShare).eq hlt
      have hpool : run.exactNeed ≤ run.pool.numWorkers := by
        rw [Bool.and_eq_true, decide_eq_true_eq, hval] at hadm
        exact hadm.1
      rw [hrun, hspawned, hval, sub_exact hlt le_rfl]
      refine ⟨⟨hpins, rfl, rfl⟩, ?_⟩
      intro hover
      unfold exactNeed at hpool
      omega
    · have hrun : run.runGraph = ⟨run.pinnedWorkers, run.need, Tracked.of 0, true, none⟩ := by
        simp only [runGraph, resolveBudget, hon, hadm]
        rfl
      rw [hrun]
      exact ⟨⟨hpins, (run.need_tracks hp).mark.2 hlt, rfl⟩, fun _ => ⟨rfl, rfl⟩⟩

/-- off the pool's own workers the run computes `need` -/
theorem runGraph_need (h : run.pool.isOnThisPool = false) : run.runGraph.need = run.need := by
  unfold runGraph resolveBudget
  dsimp only
  rw [h]
  simp only [Bool.false_eq_true, if_false]
  split_ifs <;> rfl

/-- **The arithmetic of a graph run** is right, and pins above the pool mean threads, exactly under `Fits` -/
theorem runGraph_in_range : run.runGraph.InRange ∧ run.FallsBack run.runGraph ↔ run.Fits := by
  constructor
  · rintro ⟨hl, -⟩
    have hp : run.pinned < word := run.pinned_tracks.mark.1 hl.pinnedWorkers
    refine ⟨hp, ?_⟩
    intro hon
    apply run.exactNeed_lt_iff.1
    apply (run.need_tracks hp).mark.1
    rw [← run.runGraph_need hon]
    exact hl.need
  · rintro ⟨hp, hneed⟩
    apply run.runGraph_spec hp
    by_cases hon : run.pool.isOnThisPool = true
    · exact Or.inl hon
    · exact Or.inr (run.exactNeed_lt_iff.2 (hneed (by simpa using hon)))

end GraphRun

/-! ## Both engines -/

/-- half of the range -/
def half : ℕ+ := ⟨2 ^ 63, Nat.two_pow_pos 63⟩

theorem four_in_range : 1 ≤ 4 ∧ 4 ≤ 511 ∧ 0 ≤ 4 := by decide

/-- an idle pool of four workers -/
def fourWorkers : Pool where
  toPoolView := ⟨4, false, 0, fun k => k ≤ 4⟩
  one_le := four_in_range.1
  le_max := four_in_range.2.1
  used_le := four_in_range.2.2

/-- two sync stages, each pinned to 2^63 workers -/
def twoHalves : Links := .stage .sync (.stage .sync .start ⟨some half, none⟩ 16) ⟨some half, none⟩ 16

theorem hundred_in_range : 1 ≤ 100 ∧ 100 < word ∧ twoHalves.count < 2 ^ 60 := by decide

/-- a hundred items over two halves of the range, on an idle pool of four workers -/
def hugePins : StreamRun where
  links := twoHalves
  config := ⟨64, 4, false⟩
  ioConcurrency := 64
  asyncWorkers := 4
  pool := fourWorkers
  n := 100
  slotBytes := 16
  chainFloor := none
  batchRecvCap := 64
  sharded := true
  shardedAsync := false
  items := hundred_in_range.1
  length := hundred_in_range.2.1
  fits := hundred_in_range.2.2

end YouPipe.Usize
