/-
Admission of a streaming run (`resolve_admission`, `route_feeder` and the spawn walk in `builder/typed/stream.rs`). A run in
pool mode reserves parking slots before anything is spawned, from a fold over its chain (`stage_budget`); the jobs are then
spawned by a second recursion over the chain, entered through one of five spawn forms, which draws the workers of each stage
from two mutable counters.

The counters are exact naturals. The snapshot of the pool's lease load and the outcome of the reservation are arbitrary: other
runs reserve and release between the two. The trace of `stage_workers` calls is kept beside the cells; the in-flight estimate
only pre-sizes the reorder window and is left out, and so are the bridges, which are OS threads or runtime tasks.

`admission_covers_walk`: in pool mode the walk calls `stage_workers` once per stage of the budget in every form, with at least
one slot left per stage not yet spawned; every stage gets exactly what it asked for; the jobs of the run stay within the
reservation, which stays within the pool.
-/
import Mathlib.Tactic
import YouPipe.Core.Word

namespace YouPipe.Admit

/-! ## Chains and their budget -/

/-- `SyncStageOptions`; the pins are `NonZeroUsize` -/
structure SyncStageOptions where
  workers : Option ℕ+
  buffer : Option ℕ+

/-- the stages that run on pool workers -/
inductive StageKind where
  | sync
  | expand
  | orderedExpand
  | grouped
  | groupedExpand
deriving DecidableEq, Repr

/-- a chain type built on `StreamStart`; `async` stands for `AsyncStage` and `GroupedAsyncStage` -/
inductive Chain where
  | start
  | stage (kind : StageKind) (prev : Chain) (opts : SyncStageOptions)
  | async (prev : Chain)
  | fence (prev : Chain)

structure StageBudget where
  stages : ℕ
  fences : ℕ
  explicitStages : ℕ
  explicitWorkers : ℕ
deriving DecidableEq, Repr

/-- `stage_budget` -/
def Chain.stageBudget : Chain → StageBudget
  | .start => ⟨0, 0, 0, 0⟩
  | .stage _ prev opts =>
    let budget := prev.stageBudget
    match opts.workers with
    | some w => ⟨budget.stages + 1, budget.fences, budget.explicitStages + 1, budget.explicitWorkers + w⟩
    | none => ⟨budget.stages + 1, budget.fences, budget.explicitStages, budget.explicitWorkers⟩
  | .async prev => prev.stageBudget
  | .fence prev =>
    let budget := prev.stageBudget
    ⟨budget.stages, budget.fences + 1, budget.explicitStages, budget.explicitWorkers⟩

/-- `StageBudget::default_workers` -/
def StageBudget.defaultWorkers (budget : StageBudget) (poolWorkers : ℕ) : ℕ :=
  let unspecified := budget.stages - budget.explicitStages
  if unspecified = 0 then 1 else max ((poolWorkers - budget.explicitWorkers) / unspecified) 1

def Chain.hasAsyncStage : Chain → Bool
  | .start => false
  | .stage _ prev _ => prev.hasAsyncStage
  | .async _ => true
  | .fence prev => prev.hasAsyncStage

def Chain.firstConsumerIsAsync : Chain → Option Bool
  | .start => none
  | .stage _ prev _ => prev.firstConsumerIsAsync <|> some false
  | .async prev => prev.firstConsumerIsAsync <|> some true
  | .fence prev => prev.firstConsumerIsAsync

/-! ## Admission -/

/-- the fields of `PipelineConfig` that admission reads -/
structure PipelineConfig where
  bufferSize : ℕ
  computeWorkers : ℕ
  computeWorkersPinned : Bool
deriving DecidableEq, Repr

/-- what admission sees of the pool: whether the caller is one of its workers, the lease load it read, and whether the
reservation of so many slots succeeded -/
structure PoolView where
  numWorkers : ℕ
  isOnThisPool : Bool
  parkingUsed : ℕ
  tryReserveParking : ℕ → Bool

/-- `reserved` is that of the lease, if there is one -/
structure Admission where
  reserved : Option ℕ
  dedicatedThreads : Bool
  perStageParallelism : ℕ
  workerSlotsLeft : ℕ
  stagesLeft : ℕ
deriving DecidableEq, Repr

def flooredChannelCapacity (bufferSize parallelism : ℕ) : ℕ := max bufferSize (parallelism * 4)

def feederSlot (config : PipelineConfig) (n : ℕ) : ℕ :=
  if flooredChannelCapacity config.bufferSize 1 < n then 1 else 0

def workersBudget (config : PipelineConfig) (pool : PoolView) : ℕ :=
  if config.computeWorkersPinned then config.computeWorkers else max config.computeWorkers pool.numWorkers

/-- the per-stage default of a run in pool mode, from the live slots of the snapshot -/
def perStage (budget : StageBudget) (config : PipelineConfig) (pool : PoolView) (n : ℕ) : ℕ :=
  let liveSlots := pool.numWorkers - (pool.parkingUsed + feederSlot config n + budget.fences)
  budget.defaultWorkers (min (workersBudget config pool) liveSlots)

/-- the upper bound of the run's parking jobs -/
def need (budget : StageBudget) (config : PipelineConfig) (pool : PoolView) (n : ℕ) : ℕ :=
  let unpinned := budget.stages - budget.explicitStages
  feederSlot config n + budget.fences + budget.explicitWorkers + unpinned * min (perStage budget config pool n) n

def resolveAdmission (budget : StageBudget) (config : PipelineConfig) (pool : PoolView) (n : ℕ) : Admission :=
  let dedicated : Admission := ⟨none, true, budget.defaultWorkers (workersBudget config pool), 0, 0⟩
  if pool.isOnThisPool then dedicated
  else
    let need := need budget config pool n
    if need ≤ pool.numWorkers && pool.tryReserveParking need then
      ⟨some need, false, perStage budget config pool n, need - feederSlot config n - budget.fences, budget.stages⟩
    else dedicated

/-! ## The spawn walk -/

/-- one call of `stage_workers`: the cells it found, what it was asked for, what it granted -/
structure StageCall where
  slots : ℕ
  stagesLeft : ℕ
  workers : Option ℕ+
  granted : ℕ

/-- the read-only part of `StreamCtx`; `chainFloor` and `slotBytes` are the async-chain floor knob and the size of a slot of
the feeder channel -/
structure StreamCtx where
  config : PipelineConfig
  n : ℕ
  perStageParallelism : ℕ
  dedicatedThreads : Bool
  hasAsyncStage : Bool
  chainFloor : Option ℕ
  slotBytes : ℕ

/-- its cells, the jobs wrapped through the lease by kind, and the calls made -/
structure Cells where
  workerSlotsLeft : ℕ
  stagesLeft : ℕ
  feederJobs : ℕ
  fenceJobs : ℕ
  stageJobs : ℕ
  calls : List StageCall

/-- `stage_workers` -/
def stageWorkers (ctx : StreamCtx) (opts : SyncStageOptions) (cells : Cells) : ℕ × Cells :=
  let requested := match opts.workers with
    | some w => (w : ℕ)
    | none => ctx.perStageParallelism
  let requested := max (min requested (max ctx.n 1)) 1
  if ctx.dedicatedThreads then
    (requested, ⟨cells.workerSlotsLeft, cells.stagesLeft, cells.feederJobs, cells.fenceJobs, cells.stageJobs,
      cells.calls ++ [⟨cells.workerSlotsLeft, cells.stagesLeft, opts.workers, requested⟩]⟩)
  else
    let slots := cells.workerSlotsLeft
    let after := cells.stagesLeft - 1
    let granted := max (min requested (slots - after)) 1
    (granted, ⟨slots - granted, after, cells.feederJobs, cells.fenceJobs, cells.stageJobs,
      cells.calls ++ [⟨slots, cells.stagesLeft, opts.workers, granted⟩]⟩)

/-- how a stage is entered -/
inductive Form where
  | spawn
  | spawnSingle
  | spawnForAsync
  | spawnAsyncFeeder
  | spawnAsyncFeederSingle
deriving DecidableEq, Repr

/-- the form in which a pool stage or a fence enters its `prev` -/
def Form.intoSync : Form → Form
  | .spawn => .spawn
  | .spawnSingle => .spawn
  | .spawnForAsync => .spawn
  | .spawnAsyncFeeder => .spawnAsyncFeeder
  | .spawnAsyncFeederSingle => .spawnAsyncFeeder

/-- the form in which an async stage enters its `prev`; its `spawn` is its own `spawn_for_async` -/
def Form.intoAsync : Form → Form
  | .spawn => .spawnForAsync
  | .spawnSingle => .spawnForAsync
  | .spawnForAsync => .spawnForAsync
  | .spawnAsyncFeeder => .spawnAsyncFeeder
  | .spawnAsyncFeederSingle => .spawnAsyncFeeder

/-- `spawn_stage_jobs`: in pool mode every job is wrapped through the lease -/
def Cells.spawnStageJobs (ctx : StreamCtx) (cells : Cells) (jobs : ℕ) : Cells :=
  if ctx.dedicatedThreads then cells else { cells with stageJobs := cells.stageJobs + jobs }

def Cells.spawnForwarder (ctx : StreamCtx) (cells : Cells) : Cells :=
  if ctx.dedicatedThreads then cells else { cells with fenceJobs := cells.fenceJobs + 1 }

/-- the spawn walk over a chain entered through `form`: `prev` first, then the stage's own jobs -/
def Chain.spawnWalk (ctx : StreamCtx) : Chain → Form → Cells → Cells
  | .start, _, cells => cells
  | .stage _ prev opts, form, cells =>
    let cells := prev.spawnWalk ctx form.intoSync cells
    let (parallelism, cells) := stageWorkers ctx opts cells
    cells.spawnStageJobs ctx parallelism
  | .async prev, form, cells => prev.spawnWalk ctx form.intoAsync cells
  | .fence prev, form, cells => (prev.spawnWalk ctx form.intoSync cells).spawnForwarder ctx

def ASYNC_CHAIN_FLOOR_BYTES : ℕ := 8 * 2 ^ 20

/-- `async_chain_floor` -/
def StreamCtx.asyncChainFloor (ctx : StreamCtx) (buffer : ℕ) : ℕ :=
  match ctx.chainFloor with
  | none => buffer
  | some floor =>
    if ctx.hasAsyncStage then
      let budgetSlots := ASYNC_CHAIN_FLOOR_BYTES / max ctx.slotBytes 1
      max buffer (min (min ctx.n floor) (max budgetSlots 1))
    else buffer

/-- `feed_items`: inline when the items fit, else a job of the pool or a thread -/
def feedItems (ctx : StreamCtx) (buffer : ℕ) (cells : Cells) : Cells :=
  if ctx.n ≤ buffer || ctx.dedicatedThreads then cells else { cells with feederJobs := cells.feederJobs + 1 }

/-- the capacity `route_feeder` gives the feeder channel -/
def StreamCtx.feederBuffer (ctx : StreamCtx) : ℕ :=
  ctx.asyncChainFloor (flooredChannelCapacity ctx.config.bufferSize ctx.perStageParallelism)

/-- `route_feeder`: the feeder, then the walk -/
def routeFeeder (ctx : StreamCtx) (chain : Chain) (cells : Cells) : Cells :=
  let cells := feedItems ctx ctx.feederBuffer cells
  let form := if chain.firstConsumerIsAsync = some true then Form.spawnAsyncFeederSingle else Form.spawnSingle
  chain.spawnWalk ctx form cells

/-- the context `exec_stream` builds from an admission -/
def Admission.ctx (a : Admission) (config : PipelineConfig) (chain : Chain) (n : ℕ) (chainFloor : Option ℕ) (slotBytes : ℕ) :
    StreamCtx :=
  ⟨config, n, a.perStageParallelism, a.dedicatedThreads, chain.hasAsyncStage, chainFloor, slotBytes⟩

def Admission.cells (a : Admission) : Cells := ⟨a.workerSlotsLeft, a.stagesLeft, 0, 0, 0, []⟩

/-! ## What the reservation promises each stage -/

/-- the worker pins of the pool stages, upstream first -/
def Chain.pins : Chain → List (Option ℕ+)
  | .start => []
  | .stage _ prev opts => prev.pins ++ [opts.workers]
  | .async prev => prev.pins
  | .fence prev => prev.pins

/-- the slots reserved for a stage: its whole pin, or the per-stage default, which is clamped to the items -/
def share (per n : ℕ) : Option ℕ+ → ℕ
  | some w => w
  | none => min per n

/-- what a stage asks for -/
def asked (per n : ℕ) : Option ℕ+ → ℕ
  | some w => min (w : ℕ) n
  | none => min per n

theorem asked_le_share (per n : ℕ) (w : Option ℕ+) : asked per n w ≤ share per n w := by
  cases w with
  | none => exact le_refl _
  | some w => exact min_le_left _ _

theorem one_le_asked {per n : ℕ} (hp : 1 ≤ per) (hn : 1 ≤ n) (w : Option ℕ+) : 1 ≤ asked per n w := by
  cases w with
  | none => exact le_min hp hn
  | some w => exact le_min w.pos hn

theorem length_pins (chain : Chain) : chain.pins.length = chain.stageBudget.stages := by
  induction chain with
  | start => rfl
  | stage kind prev opts ih =>
    cases hw : opts.workers with
    | none => simp [Chain.pins, Chain.stageBudget, hw, ih]
    | some w => simp [Chain.pins, Chain.stageBudget, hw, ih]
  | async prev ih => exact ih
  | fence prev ih => exact ih

theorem explicitStages_le (chain : Chain) : chain.stageBudget.explicitStages ≤ chain.stageBudget.stages := by
  induction chain with
  | start => exact le_refl _
  | stage kind prev opts ih =>
    cases hw : opts.workers with
    | none => simp only [Chain.stageBudget, hw]; omega
    | some w => simp only [Chain.stageBudget, hw]; omega
  | async prev ih => exact ih
  | fence prev ih => exact ih

/-- the stage-worker part of the reservation is the sum of the stages' shares -/
theorem shares_eq (chain : Chain) (per n : ℕ) : chain.stageBudget.explicitWorkers +
    (chain.stageBudget.stages - chain.stageBudget.explicitStages) * min per n = (chain.pins.map (share per n)).sum := by
  induction chain with
  | start => simp [Chain.stageBudget, Chain.pins]
  | stage kind prev opts ih =>
    have hle := explicitStages_le prev
    simp only [Chain.pins, List.map_append, List.map_singleton, List.sum_append, List.sum_singleton, ← ih]
    cases hw : opts.workers with
    | none =>
      simp only [Chain.stageBudget, hw, share]
      rw [Nat.sub_add_comm hle, Nat.succ_mul]
      omega
    | some w =>
      simp only [Chain.stageBudget, hw, share, Nat.add_sub_add_right]
      omega
  | async prev ih => exact ih
  | fence prev ih => exact ih

theorem one_le_defaultWorkers (budget : StageBudget) (k : ℕ) : 1 ≤ budget.defaultWorkers k := by
  unfold StageBudget.defaultWorkers
  dsimp only
  split_ifs
  · exact le_refl 1
  · exact le_max_right _ _

/-! ## The walk -/

section Walk

variable {ctx : StreamCtx}

/-- `stage_workers` in pool mode, with enough slots left: it grants exactly what the stage asks for -/
theorem stageWorkers_spec (hd : ctx.dedicatedThreads = false) (hn : 1 ≤ ctx.n) (hp : 1 ≤ ctx.perStageParallelism)
    (opts : SyncStageOptions) {cells : Cells} {after : ℕ} (hleft : cells.stagesLeft = after + 1)
    (hslots : share ctx.perStageParallelism ctx.n opts.workers + after ≤ cells.workerSlotsLeft) :
    stageWorkers ctx opts cells = (asked ctx.perStageParallelism ctx.n opts.workers,
      ⟨cells.workerSlotsLeft - asked ctx.perStageParallelism ctx.n opts.workers, after, cells.feederJobs, cells.fenceJobs,
        cells.stageJobs, cells.calls ++
          [⟨cells.workerSlotsLeft, after + 1, opts.workers, asked ctx.perStageParallelism ctx.n opts.workers⟩]⟩) := by
  have hreq : max (min (match opts.workers with | some w => (w : ℕ) | none => ctx.perStageParallelism) (max ctx.n 1)) 1 =
      asked ctx.perStageParallelism ctx.n opts.workers := by
    rw [Nat.max_eq_left hn]
    have hone := one_le_asked hp hn opts.workers
    cases hw : opts.workers with
    | none => rw [hw] at hone; exact Nat.max_eq_left hone
    | some w => rw [hw] at hone; exact Nat.max_eq_left hone
  have hshare := asked_le_share ctx.perStageParallelism ctx.n opts.workers
  have hgrant : max (min (asked ctx.perStageParallelism ctx.n opts.workers) (cells.workerSlotsLeft - after)) 1 =
      asked ctx.perStageParallelism ctx.n opts.workers := by
    rw [Nat.min_eq_left (by omega)]
    exact Nat.max_eq_left (one_le_asked hp hn opts.workers)
  simp only [stageWorkers, hd, Bool.false_eq_true, if_false, hreq, hleft, Nat.add_sub_cancel, hgrant]

/-- what a call of `stage_workers` must have seen and done when `unspawned` stages, its own included, are not yet spawned -/
structure CallOk (per n unspawned : ℕ) (call : StageCall) : Prop where
  left : call.stagesLeft = unspawned
  slots : unspawned ≤ call.slots
  granted : call.granted = asked per n call.workers
  pos : 1 ≤ call.granted

/-- the walk over a chain from `cells` to `cells'`, with `after` stages still to come behind the chain -/
structure WalkSpec (per n : ℕ) (chain : Chain) (after : ℕ) (cells cells' : Cells) : Prop where
  left : cells'.stagesLeft = after
  slots : cells'.workerSlotsLeft + cells'.stageJobs = cells.workerSlotsLeft + cells.stageJobs
  jobs : cells'.stageJobs ≤ cells.stageJobs + (chain.pins.map (share per n)).sum
  fences : cells'.fenceJobs = cells.fenceJobs + chain.stageBudget.fences
  feeder : cells'.feederJobs = cells.feederJobs
  calls : ∃ calls, cells'.calls = cells.calls ++ calls ∧ calls.map StageCall.workers = chain.pins ∧
    cells'.stageJobs = cells.stageJobs + (calls.map StageCall.granted).sum ∧
    ∀ k call, calls[k]? = some call → CallOk per n (chain.stageBudget.stages + after - k) call

/-- **The spawn walk**, in every form: by induction on the chain, the upstream part first -/
theorem spawnWalk_spec (hd : ctx.dedicatedThreads = false) (hn : 1 ≤ ctx.n) (hp : 1 ≤ ctx.perStageParallelism)
    (chain : Chain) : ∀ (form : Form) (after : ℕ) (cells : Cells), cells.stagesLeft = chain.stageBudget.stages + after →
    (chain.pins.map (share ctx.perStageParallelism ctx.n)).sum + after ≤ cells.workerSlotsLeft →
    WalkSpec ctx.perStageParallelism ctx.n chain after cells (chain.spawnWalk ctx form cells) := by
  induction chain with
  | start =>
    intro form after cells hleft _
    refine ⟨?_, rfl, le_refl _, rfl, rfl, [], (List.append_nil _).symm, rfl, rfl, ?_⟩
    · simpa [Chain.stageBudget, Chain.spawnWalk] using hleft
    · intro k call h
      simp at h
  | stage kind prev opts ih =>
    intro form after cells hleft hslots
    have hstages : (Chain.stage kind prev opts).stageBudget.stages = prev.stageBudget.stages + 1 := by
      cases hw : opts.workers <;> simp [Chain.stageBudget, hw]
    have hfences : (Chain.stage kind prev opts).stageBudget.fences = prev.stageBudget.fences := by
      cases hw : opts.workers <;> simp [Chain.stageBudget, hw]
    have hsum : ((Chain.stage kind prev opts).pins.map (share ctx.perStageParallelism ctx.n)).sum =
        (prev.pins.map (share ctx.perStageParallelism ctx.n)).sum + share ctx.perStageParallelism ctx.n opts.workers := by
      simp [Chain.pins]
    have hone := one_le_asked hp hn opts.workers
    have hle := asked_le_share ctx.perStageParallelism ctx.n opts.workers
    rw [hstages] at hleft
    rw [hsum] at hslots
    have hprev := ih form.intoSync (after + 1) cells (by omega) (by omega)
    obtain ⟨c, hc⟩ : ∃ c, c = prev.spawnWalk ctx form.intoSync cells := ⟨_, rfl⟩
    rw [← hc] at hprev
    have hshare : share ctx.perStageParallelism ctx.n opts.workers + after ≤ c.workerSlotsLeft := by
      have h1 := hprev.slots
      have h2 := hprev.jobs
      omega
    have hwalk : (Chain.stage kind prev opts).spawnWalk ctx form cells =
        (stageWorkers ctx opts c).2.spawnStageJobs ctx (stageWorkers ctx opts c).1 := by
      rw [Chain.spawnWalk, ← hc]
    rw [hwalk, stageWorkers_spec hd hn hp opts hprev.left hshare]
    simp only [Cells.spawnStageJobs, hd, Bool.false_eq_true, if_false]
    obtain ⟨calls, hcalls, hpins, hjobs, hok⟩ := hprev.calls
    have hlen : calls.length = prev.stageBudget.stages := by
      rw [← length_pins, ← hpins, List.length_map]
    constructor
    · rfl
    · have h1 := hprev.slots
      dsimp only
      omega
    · have h2 := hprev.jobs
      dsimp only
      omega
    · exact hprev.fences.trans (by rw [hfences])
    · exact hprev.feeder
    · refine ⟨calls ++ [⟨c.workerSlotsLeft, after + 1, opts.workers, asked ctx.perStageParallelism ctx.n opts.workers⟩], ?_,
        ?_, ?_, ?_⟩
      · rw [hcalls, List.append_assoc]
      · rw [List.map_append, hpins]
        rfl
      · rw [List.map_append, List.sum_append, ← Nat.add_assoc, ← hjobs]
        rfl
      · intro k call hk
        rw [hstages]
        rcases Nat.lt_or_ge k calls.length with h | h
        · rw [List.getElem?_append_left h] at hk
          have := hok k call hk
          rwa [show prev.stageBudget.stages + 1 + after - k = prev.stageBudget.stages + (after + 1) - k by omega]
        · rw [List.getElem?_append_right h, List.getElem?_singleton] at hk
          split_ifs at hk with hk0
          cases hk
          rw [show prev.stageBudget.stages + 1 + after - k = after + 1 by omega]
          exact ⟨rfl, by dsimp only; omega, rfl, hone⟩
  | async prev ih =>
    intro form after cells hleft hslots
    obtain ⟨h1, h2, h3, h4, h5, h6⟩ := ih form.intoAsync after cells hleft hslots
    exact ⟨h1, h2, h3, h4, h5, h6⟩
  | fence prev ih =>
    intro form after cells hleft hslots
    obtain ⟨h1, h2, h3, h4, h5, h6⟩ := ih form.intoSync after cells hleft hslots
    rw [Chain.spawnWalk, Cells.spawnForwarder, if_neg (by simp [hd])]
    refine ⟨h1, h2, h3, ?_, h5, h6⟩
    dsimp only [Chain.stageBudget]
    omega

end Walk

/-! ## Results -/

variable {budget : StageBudget} {config : PipelineConfig} {pool : PoolView} {n : ℕ}

/-- what a granted admission carries -/
theorem resolveAdmission_pool (h : (resolveAdmission budget config pool n).dedicatedThreads = false) :
    need budget config pool n ≤ pool.numWorkers ∧ resolveAdmission budget config pool n =
      ⟨some (need budget config pool n), false, perStage budget config pool n,
        need budget config pool n - feederSlot config n - budget.fences, budget.stages⟩ := by
  unfold resolveAdmission at h ⊢
  dsimp only at h ⊢
  split_ifs at h ⊢ with h1 h2
  · rw [Bool.and_eq_true, decide_eq_true_eq] at h2
    exact ⟨h2.1, rfl⟩

theorem le_asyncChainFloor (ctx : StreamCtx) (buffer : ℕ) : buffer ≤ ctx.asyncChainFloor buffer := by
  unfold StreamCtx.asyncChainFloor
  cases ctx.chainFloor with
  | none => exact le_refl _
  | some floor =>
    dsimp only
    split_ifs
    · exact le_max_left _ _
    · exact le_refl _

/-- the feeder is a job only when its slot was predicted, whatever buffer the run resolves -/
theorem feeder_predicted {ctx : StreamCtx} (hp : 1 ≤ ctx.perStageParallelism) :
    (if ctx.n ≤ ctx.feederBuffer then 0 else 1) ≤ feederSlot ctx.config ctx.n := by
  have hfloor : flooredChannelCapacity ctx.config.bufferSize 1 ≤ ctx.feederBuffer := by
    refine le_trans ?_ (le_asyncChainFloor ctx _)
    exact max_le_max (le_refl _) (by omega)
  unfold feederSlot
  split_ifs <;> omega

/-- the jobs and the `stage_workers` calls of a walk, against the admission `a` of the run -/
structure Covers (chain : Chain) (config : PipelineConfig) (pool : PoolView) (n : ℕ) (a : Admission) (cells : Cells) : Prop where
  once : cells.calls.length = chain.stageBudget.stages ∧ cells.calls.map StageCall.workers = chain.pins
  slots : ∀ k call, cells.calls[k]? = some call → chain.stageBudget.stages - k ≤ call.slots
  granted : ∀ call ∈ cells.calls, call.granted = asked a.perStageParallelism n call.workers ∧ 1 ≤ call.granted
  stageJobs : cells.stageJobs = (cells.calls.map StageCall.granted).sum
  fenceJobs : cells.fenceJobs = chain.stageBudget.fences
  feederJobs : cells.feederJobs ≤ feederSlot config n
  reserved : a.reserved = some (need chain.stageBudget config pool n)
  jobs : cells.feederJobs + cells.fenceJobs + cells.stageJobs ≤ need chain.stageBudget config pool n
  pool : need chain.stageBudget config pool n ≤ pool.numWorkers

/-- **Admission covers the spawn walk.** When a run is admitted in pool mode, for any snapshot of the lease load and in every
spawn form: `stage_workers` is called once per stage of the budget, upstream first; each call finds at least one slot per stage
not yet spawned and grants exactly the smaller of the pin (or the default) and `n`, at least 1; the feeder is a job only if its
slot was reserved; and the run's jobs are within the reservation, which is within the pool. -/
theorem admission_covers_walk (chain : Chain) (config : PipelineConfig) (pool : PoolView) (n : ℕ) (chainFloor : Option ℕ)
    (slotBytes : ℕ) (hn : 1 ≤ n) (hpool : (resolveAdmission chain.stageBudget config pool n).dedicatedThreads = false) :
    let a := resolveAdmission chain.stageBudget config pool n
    let ctx := a.ctx config chain n chainFloor slotBytes
    (∀ form, Covers chain config pool n a (chain.spawnWalk ctx form (feedItems ctx ctx.feederBuffer a.cells))) ∧
      Covers chain config pool n a (routeFeeder ctx chain a.cells) := by
  intro a ctx
  obtain ⟨hle, ha⟩ := resolveAdmission_pool hpool
  have hper : a.perStageParallelism = perStage chain.stageBudget config pool n := by rw [show a = _ from ha]
  have hone : 1 ≤ a.perStageParallelism := by
    rw [hper]
    exact one_le_defaultWorkers _ _
  have hshares : (chain.pins.map (share a.perStageParallelism n)).sum = a.workerSlotsLeft := by
    rw [← shares_eq, hper, show a = _ from ha, need]
    dsimp only
    omega
  have hneed : need chain.stageBudget config pool n =
      feederSlot config n + chain.stageBudget.fences + (chain.pins.map (share a.perStageParallelism n)).sum := by
    rw [← shares_eq, hper, need]
    omega
  have hfeed : (feedItems ctx ctx.feederBuffer a.cells).workerSlotsLeft = a.workerSlotsLeft ∧
      (feedItems ctx ctx.feederBuffer a.cells).stagesLeft = chain.stageBudget.stages ∧
      (feedItems ctx ctx.feederBuffer a.cells).feederJobs ≤ feederSlot config n ∧
      (feedItems ctx ctx.feederBuffer a.cells).fenceJobs = 0 ∧
      (feedItems ctx ctx.feederBuffer a.cells).stageJobs = 0 ∧ (feedItems ctx ctx.feederBuffer a.cells).calls = [] := by
    have hstages : a.stagesLeft = chain.stageBudget.stages := by rw [show a = _ from ha]
    have hpred := @feeder_predicted ctx hone
    rw [feedItems, show ctx.dedicatedThreads = false from hpool, Bool.or_false]
    by_cases hfit : ctx.n ≤ ctx.feederBuffer
    · rw [if_pos (by simpa using hfit)]
      exact ⟨rfl, hstages, Nat.zero_le _, rfl, rfl, rfl⟩
    · rw [if_neg (by simpa using hfit)]
      rw [if_neg hfit] at hpred
      exact ⟨rfl, hstages, hpred, rfl, rfl, rfl⟩
  obtain ⟨c0, hc0⟩ : ∃ c0, c0 = feedItems ctx ctx.feederBuffer a.cells := ⟨_, rfl⟩
  rw [← hc0] at hfeed
  obtain ⟨hs0, hl0, hf0, hfence0, hj0, hcalls0⟩ := hfeed
  have hall : ∀ form, Covers chain config pool n a (chain.spawnWalk ctx form c0) := by
    intro form
    obtain ⟨h1, h2, h3, h4, h5, calls, hcalls, hpins, hjobs, hok⟩ := @spawnWalk_spec ctx hpool hn hone chain form 0 c0
      hl0 (by rw [hs0, ← hshares]; exact le_refl _)
    rw [hcalls0, List.nil_append] at hcalls
    constructor
    · rw [hcalls, ← length_pins, ← hpins]
      exact ⟨(List.length_map _).symm, rfl⟩
    · intro k call hk
      rw [hcalls] at hk
      exact (hok k call hk).slots
    · intro call hcall
      rw [hcalls] at hcall
      obtain ⟨k, hk⟩ := List.getElem?_of_mem hcall
      exact ⟨(hok k call hk).granted, (hok k call hk).pos⟩
    · rw [hcalls, hjobs, hj0, Nat.zero_add]
    · rw [h4, hfence0, Nat.zero_add]
    · rw [h5]
      exact hf0
    · rw [show a = _ from ha]
    · rw [hneed]
      change (chain.spawnWalk ctx form c0).stageJobs ≤ c0.stageJobs + (chain.pins.map (share a.perStageParallelism n)).sum at h3
      omega
    · exact hle
  refine ⟨hc0 ▸ hall, ?_⟩
  rw [routeFeeder, ← hc0]
  exact hall _

/-- two stages, the second one pinned to two workers, with a fence between them, on a pool of eight -/
def fencedChain : Chain := .stage .sync (.fence (.stage .expand .start ⟨none, none⟩)) ⟨some 2, none⟩

/-- a pool whose snapshot read six slots in use, four of which were free again when the reservation was made -/
def staleView : PoolView := ⟨8, false, 6, fun k => k ≤ 6⟩

/-- the stale snapshot leaves no live slot, and the run is admitted with one unpinned worker: five jobs in all -/
theorem admission_covers_stale : (resolveAdmission fencedChain.stageBudget ⟨4, 8, false⟩ staleView 100).dedicatedThreads = false ∧
    Covers fencedChain ⟨4, 8, false⟩ staleView 100 (resolveAdmission fencedChain.stageBudget ⟨4, 8, false⟩ staleView 100)
      (routeFeeder ((resolveAdmission fencedChain.stageBudget ⟨4, 8, false⟩ staleView 100).ctx ⟨4, 8, false⟩ fencedChain 100 none 8)
        fencedChain (resolveAdmission fencedChain.stageBudget ⟨4, 8, false⟩ staleView 100).cells) :=
  ⟨by decide, (admission_covers_walk fencedChain ⟨4, 8, false⟩ staleView 100 none 8 (by decide) (by decide)).2⟩

end YouPipe.Admit
