/-
The arithmetic of a streaming run's admission in machine words (`builder/typed/stream.rs`): the budget fold, the sum `need`, the
worker budget, the cells of the spawn walk, the lease and the in-flight estimate.

`Stream/Admission.lean` has the same code over exact naturals; here every `usize` is a word. The numbers in question are
`Tracked` words, whose mark says that an operation on the way left the range: the pins, `need`, the worker budget, the slots, the
never-spawned remainder and the estimate (with `fence_hold` inside it). Everything else wraps silently, as in the source:
the link counters, the sum inside `live_slots`, the `parallelism * 4` of a capacity, `stages_left - 1`. Here the chain carries
all its options, since every channel, fence and task adds to the estimate.

A chain is a Rust value: each link holds at least one eight-byte option and no value has more than `isize::MAX` bytes, so it has
fewer than 2^60 links.

Results, towards `admission_in_range` of `Graph/Arithmetic.lean`:
- `resolveAdmission_exact`: with the pins and `need` in range, the words are those of the exact admission;
- `spawnWalk_spec`: the walk's slots never borrow, and the estimate is right exactly when its exact total is a word;
- `execStream_in_range`: all marks are down, and pins above the pool mean threads, exactly under `StreamRun.Fits`.
-/
import Mathlib.Tactic
import YouPipe.Core.Tracked
import YouPipe.Stream.Admission

namespace YouPipe.Usize

open YouPipe.Word YouPipe.Admit

/-! ## Chains with their options -/

structure AsyncStageOptions where
  ioConcurrency : Option ℕ+
  buffer : Option ℕ+

inductive FenceMode where
  | barrier
  | chunked (k : ℕ+)

def FenceMode.chunkSize : FenceMode → Option ℕ
  | .barrier => none
  | .chunked k => some k

/-- a chain on `StreamStart`; the byte sizes are those of the slots of the channels that a link makes -/
inductive Links where
  | start
  | stage (kind : StageKind) (prev : Links) (opts : SyncStageOptions) (slotBytes : ℕ)
  | async (prev : Links) (opts : AsyncStageOptions) (inBytes outBytes : ℕ)
  | fence (prev : Links) (buffer : Option ℕ+) (mode : FenceMode) (slotBytes : ℕ)

/-- the chain of the exact model -/
def Links.chain : Links → Chain
  | .start => .start
  | .stage kind prev opts _ => .stage kind prev.chain opts
  | .async prev _ _ _ => .async prev.chain
  | .fence prev _ _ _ => .fence prev.chain

def Links.count : Links → ℕ
  | .start => 0
  | .stage _ prev _ _ => prev.count + 1
  | .async prev _ _ _ => prev.count + 1
  | .fence prev _ _ _ => prev.count + 1

/-! ## The budget -/

structure Budget where
  stages : ℕ
  fences : ℕ
  explicitStages : ℕ
  explicitWorkers : Tracked

/-- `stage_budget` -/
def Links.stageBudget : Links → Budget
  | .start => ⟨0, 0, 0, Tracked.of 0⟩
  | .stage _ prev opts _ =>
    let budget := prev.stageBudget
    match opts.workers with
    | some w => ⟨wrappingAdd budget.stages 1, budget.fences, wrappingAdd budget.explicitStages 1,
        budget.explicitWorkers + Tracked.of w⟩
    | none => ⟨wrappingAdd budget.stages 1, budget.fences, budget.explicitStages, budget.explicitWorkers⟩
  | .async prev _ _ _ => prev.stageBudget
  | .fence prev _ _ _ =>
    let budget := prev.stageBudget
    ⟨budget.stages, wrappingAdd budget.fences 1, budget.explicitStages, budget.explicitWorkers⟩

/-- the words of the budget as the code reads them -/
def Budget.read (budget : Budget) : StageBudget := ⟨budget.stages, budget.fences, budget.explicitStages, budget.explicitWorkers.val⟩

/-! ## Admission -/

/-- `need` is 0 where the code does not compute it -/
structure Admission where
  need : Tracked
  reserved : Option Tracked
  dedicatedThreads : Bool
  perStageParallelism : ℕ
  workerSlotsLeft : Tracked
  stagesLeft : ℕ

def perStage (budget : Budget) (config : PipelineConfig) (pool : PoolView) (n : ℕ) : ℕ :=
  let liveSlots := pool.numWorkers - wrappingAdd (wrappingAdd pool.parkingUsed (feederSlot config n)) budget.fences
  budget.read.defaultWorkers (min (workersBudget config pool) liveSlots)

def need (budget : Budget) (config : PipelineConfig) (pool : PoolView) (n : ℕ) : Tracked :=
  let unpinned := budget.stages - budget.explicitStages
  Tracked.of (feederSlot config n) + Tracked.of budget.fences + budget.explicitWorkers +
    Tracked.of unpinned * Tracked.of (min (perStage budget config pool n) n)

def resolveAdmission (budget : Budget) (config : PipelineConfig) (pool : PoolView) (n : ℕ) : Admission :=
  let shared := budget.read.defaultWorkers (workersBudget config pool)
  if pool.isOnThisPool then ⟨Tracked.of 0, none, true, shared, Tracked.of 0, 0⟩
  else
    let need := need budget config pool n
    if need.val ≤ pool.numWorkers && pool.tryReserveParking need.val then
      ⟨need, some need, false, perStage budget config pool n,
        need - Tracked.of (feederSlot config n) - Tracked.of budget.fences, budget.stages⟩
    else ⟨need, none, true, shared, Tracked.of 0, 0⟩

/-! ## The spawn walk -/

/-- the run's context: that of the exact model, the rest of `PipelineConfig`, and the knobs of the data plane -/
structure Ctx extends StreamCtx where
  ioConcurrency : ℕ
  asyncWorkers : ℕ
  batchRecvCap : ℕ
  sharded : Bool
  shardedAsync : Bool

structure Cells where
  workerSlotsLeft : Tracked
  stagesLeft : ℕ
  spawned : Tracked
  inFlight : Tracked

def Cells.noteInFlight (cells : Cells) (items : Tracked) : Cells := { cells with inFlight := cells.inFlight + items }

def MIN_SHARD_BUFFER : ℕ := 4

/-- the `max` of `fence_hold`, `stage_workers`: a claim batch, or the single anchored item -/
def Ctx.scratch (ctx : Ctx) : ℕ := max ctx.batchRecvCap 1

def flooredCapacity (bufferSize parallelism : ℕ) : ℕ := max bufferSize (parallelism * 4 % word)

def Ctx.bufferSize (ctx : Ctx) (parallelism : ℕ) : ℕ := flooredCapacity ctx.config.bufferSize parallelism

/-- `async_chain_floor` for a slot type of the given size -/
def Ctx.chainFloored (ctx : Ctx) (slotBytes buffer : ℕ) : ℕ := { ctx.toStreamCtx with slotBytes := slotBytes }.asyncChainFloor buffer

/-- what a stage asks for: its pin or the default, within the items -/
def Ctx.requested (ctx : Ctx) (opts : SyncStageOptions) : ℕ :=
  let requested := match opts.workers with
    | some w => (w : ℕ)
    | none => ctx.perStageParallelism
  max (min requested (max ctx.n 1)) 1

/-- `stage_workers` -/
def stageWorkers (ctx : Ctx) (opts : SyncStageOptions) (cells : Cells) : ℕ × Cells :=
  let requested := ctx.requested opts
  if ctx.dedicatedThreads then (requested, cells)
  else
    let slots := cells.workerSlotsLeft
    let after := wrappingSub cells.stagesLeft 1
    let granted := max (min requested (slots.val - after)) 1
    let cells := { cells with workerSlotsLeft := slots - Tracked.of granted, stagesLeft := after }
    (granted, cells.noteInFlight (Tracked.of granted * Tracked.of ctx.scratch))

/-- the capacity `stage_buffer` resolves -/
def Ctx.capacity (ctx : Ctx) (slotBytes : ℕ) (buffer : Option ℕ+) (parallelism : ℕ) : ℕ :=
  match buffer with
  | some b => b
  | none => ctx.chainFloored slotBytes (ctx.bufferSize parallelism)

/-- `stage_buffer` -/
def stageBuffer (ctx : Ctx) (slotBytes : ℕ) (buffer : Option ℕ+) (parallelism : ℕ) (cells : Cells) : Cells :=
  cells.noteInFlight (Tracked.of (ctx.capacity slotBytes buffer parallelism))

/-- `stage_io_concurrency` -/
def Ctx.stageIoConcurrency (ctx : Ctx) (opts : AsyncStageOptions) : ℕ :=
  let resolved := match opts.ioConcurrency with
    | some c => (c : ℕ)
    | none => ctx.ioConcurrency
  min (max resolved 1) (max ctx.n 1)

def Ctx.shardedTerminal (ctx : Ctx) (parallelism : ℕ) : Bool := ctx.sharded && decide (1 < parallelism)

def Ctx.shardedAsyncTerminal (ctx : Ctx) (concurrency : ℕ) : ℕ :=
  if !ctx.shardedAsync || decide (concurrency ≤ 1) then 0 else min concurrency (max ctx.asyncWorkers 1)

/-- what a sharded terminal adds to the noted capacity -/
def Cells.noteShards (cells : Cells) (shards : ℕ) : Cells :=
  cells.noteInFlight ((Tracked.of shards - Tracked.of 1) * Tracked.of MIN_SHARD_BUFFER)

/-- the forms whose output channel goes to the collector -/
def terminal : Form → Bool
  | .spawnSingle => true
  | .spawnAsyncFeederSingle => true
  | _ => false

/-- the forms that get their input over the async feeder channel -/
def fedAsync : Form → Bool
  | .spawnAsyncFeeder => true
  | .spawnAsyncFeederSingle => true
  | _ => false

/-- whether the `FinalRx` that a link hands on, entered as another link's `prev`, is an async receiver -/
def Links.handsAsync : Links → Form → Bool
  | .start, form => fedAsync form
  | .stage _ _ _ _, _ => false
  | .async _ _ _ _, _ => true
  | .fence _ _ _ _, _ => false

/-- `finalize_prev_rx`: an async receiver is bridged, over a channel of its own -/
def finalizePrevRx (ctx : Ctx) (async : Bool) (cells : Cells) : Cells :=
  if async then cells.noteInFlight (Tracked.of (ctx.bufferSize ctx.perStageParallelism) + Tracked.of 1) else cells

/-- `spawn_stage_jobs`: in pool mode every job is wrapped through the lease -/
def Cells.spawnStageJobs (ctx : Ctx) (cells : Cells) (jobs : ℕ) : Cells :=
  if ctx.dedicatedThreads then cells else { cells with spawned := cells.spawned + Tracked.of jobs }

def Ctx.fenceHold (ctx : Ctx) (mode : FenceMode) : Tracked :=
  match mode.chunkSize with
  | some k => Tracked.of ctx.scratch + Tracked.of k
  | none => Tracked.of ctx.scratch + Tracked.of ctx.n

/-- `spawn_async_consumers_into`, with the shards of its terminal flavour -/
def spawnAsyncConsumers (ctx : Ctx) (opts : AsyncStageOptions) (outBytes : ℕ) (form : Form) (cells : Cells) : Cells :=
  let concurrency := ctx.stageIoConcurrency opts
  let cells := stageBuffer ctx outBytes opts.buffer concurrency cells
  let cells := cells.noteInFlight (Tracked.of concurrency)
  let shards := ctx.shardedAsyncTerminal concurrency
  if terminal form && decide (0 < shards) then cells.noteShards shards else cells

/-- the spawn walk over a chain entered through `form`: `prev` first, then the link's own channel and jobs -/
def Links.spawnWalk (ctx : Ctx) : Links → Form → Cells → Cells
  | .start, _, cells => cells
  | .stage _ prev opts slotBytes, form, cells =>
    let cells := finalizePrevRx ctx (prev.handsAsync form.intoSync) (prev.spawnWalk ctx form.intoSync cells)
    let (parallelism, cells) := stageWorkers ctx opts cells
    let cells := stageBuffer ctx slotBytes opts.buffer parallelism cells
    let cells := if terminal form && ctx.shardedTerminal parallelism then cells.noteShards parallelism else cells
    cells.spawnStageJobs ctx parallelism
  | .async prev opts inBytes outBytes, form, cells =>
    let cells := prev.spawnWalk ctx form.intoAsync cells
    -- over the async feeder the input is bridged, through a channel of this stage's capacity
    let cells := if fedAsync form then stageBuffer ctx inBytes opts.buffer (ctx.stageIoConcurrency opts) cells else cells
    spawnAsyncConsumers ctx opts outBytes form cells
  | .fence prev buffer mode slotBytes, form, cells =>
    let cells := finalizePrevRx ctx (prev.handsAsync form.intoSync) (prev.spawnWalk ctx form.intoSync cells)
    let cells := stageBuffer ctx slotBytes buffer ctx.perStageParallelism cells
    (cells.noteInFlight (ctx.fenceHold mode)).spawnStageJobs ctx 1

/-- the capacity `route_feeder` gives the feeder channel -/
def Ctx.feederRing (ctx : Ctx) : ℕ := ctx.chainFloored ctx.slotBytes (ctx.bufferSize ctx.perStageParallelism)

def Links.form (links : Links) : Form :=
  if links.chain.firstConsumerIsAsync = some true then .spawnAsyncFeederSingle else .spawnSingle

/-- `route_feeder`: the feeder's side of the estimate, the feeder, then the walk -/
def routeFeeder (ctx : Ctx) (links : Links) (cells : Cells) : Cells :=
  let cells := cells.noteInFlight (Tracked.of ctx.feederRing + Tracked.of 1 + Tracked.of ctx.batchRecvCap)
  let cells := if ctx.n ≤ ctx.feederRing then cells else cells.spawnStageJobs ctx 1
  links.spawnWalk ctx links.form cells

/-! ## A run -/

/-- a pool as the builder makes it: at most `MAX_COMPUTE_WORKERS` workers, and no more slots leased than workers -/
structure Pool extends PoolView where
  one_le : 1 ≤ numWorkers
  le_max : numWorkers ≤ 511
  used_le : parkingUsed ≤ numWorkers

/-- the inputs of `exec_stream`: the chain, the configuration, the pool, at least one item, the knobs of the data plane -/
structure StreamRun where
  links : Links
  config : PipelineConfig
  ioConcurrency : ℕ
  asyncWorkers : ℕ
  pool : Pool
  n : ℕ
  slotBytes : ℕ
  chainFloor : Option ℕ
  batchRecvCap : ℕ
  sharded : Bool
  shardedAsync : Bool
  items : 1 ≤ n
  length : n < word
  fits : links.count < 2 ^ 60

/-- the drop of a `ParkingLease`: what it returns are the reserved slots that no job was wrapped for -/
def dropLease (reserved : Option Tracked) (spawned : Tracked) : Tracked :=
  match reserved with
  | some reserved => reserved - spawned
  | none => Tracked.of 0

/-- every tracked number of a run, and how it was admitted -/
structure Ledger where
  explicitWorkers : Tracked
  need : Tracked
  workerBudget : Tracked
  slotsLeft : Tracked
  remainder : Tracked
  inFlight : Tracked
  dedicatedThreads : Bool
  reserved : Option ℕ
deriving DecidableEq

namespace StreamRun

variable (run : StreamRun)

/-- the context of a run on threads or on the pool, with the given per-stage default -/
def ctx (dedicatedThreads : Bool) (perStageParallelism : ℕ) : Ctx :=
  ⟨⟨run.config, run.n, perStageParallelism, dedicatedThreads, run.links.chain.hasAsyncStage, run.chainFloor, run.slotBytes⟩,
    run.ioConcurrency, run.asyncWorkers, run.batchRecvCap, run.sharded, run.shardedAsync⟩

/-- `exec_stream` up to the drop of its lease -/
def execStream : Ledger :=
  let budget := run.links.stageBudget
  let a := resolveAdmission budget run.config run.pool.toPoolView run.n
  let cells := routeFeeder (run.ctx a.dedicatedThreads a.perStageParallelism) run.links
    ⟨a.workerSlotsLeft, a.stagesLeft, Tracked.of 0, Tracked.of 0⟩
  ⟨budget.explicitWorkers, a.need, a.workerSlotsLeft, cells.workerSlotsLeft, dropLease a.reserved cells.spawned, cells.inFlight,
    a.dedicatedThreads, a.reserved.map Tracked.val⟩

end StreamRun

/-! ## The exact side -/

/-- the sum of the pins -/
def Links.pinned (links : Links) : ℕ := links.chain.stageBudget.explicitWorkers

def Links.unpinned (links : Links) : ℕ := links.chain.stageBudget.stages - links.chain.stageBudget.explicitStages

namespace Ctx

variable (ctx : Ctx)

/-- what the workers of a stage hold in their claim batches; only a run on the pool counts it -/
def claimed (opts : SyncStageOptions) : ℕ := if ctx.dedicatedThreads then 0 else ctx.requested opts * ctx.scratch

/-- what a bridge holds -/
def bridged (async : Bool) : ℕ := if async then ctx.bufferSize ctx.perStageParallelism + 1 else 0

/-- what the shards of a terminal add -/
def lifted (sharded : Bool) (shards : ℕ) : ℕ := if sharded then (shards - 1) * MIN_SHARD_BUFFER else 0

def chunk (mode : FenceMode) : ℕ := ctx.scratch + mode.chunkSize.getD ctx.n

/-- what an async stage holds: its channel, one item per task, the lift of a sharded terminal -/
def awaited (opts : AsyncStageOptions) (outBytes : ℕ) (form : Form) : ℕ :=
  let concurrency := ctx.stageIoConcurrency opts
  let shards := ctx.shardedAsyncTerminal concurrency
  ctx.capacity outBytes opts.buffer concurrency + concurrency + lifted (terminal form && decide (0 < shards)) shards

end Ctx

/-- the exact estimate of what a chain holds -/
def Links.held (ctx : Ctx) : Links → Form → ℕ
  | .start, _ => 0
  | .stage _ prev opts slotBytes, form =>
    prev.held ctx form.intoSync + ctx.bridged (prev.handsAsync form.intoSync) + ctx.claimed opts +
      ctx.capacity slotBytes opts.buffer (ctx.requested opts) +
      Ctx.lifted (terminal form && ctx.shardedTerminal (ctx.requested opts)) (ctx.requested opts)
  | .async prev opts inBytes outBytes, form =>
    prev.held ctx form.intoAsync +
      (if fedAsync form then ctx.capacity inBytes opts.buffer (ctx.stageIoConcurrency opts) else 0) +
      ctx.awaited opts outBytes form
  | .fence prev buffer mode slotBytes, form =>
    prev.held ctx form.intoSync + ctx.bridged (prev.handsAsync form.intoSync) +
      ctx.capacity slotBytes buffer ctx.perStageParallelism + ctx.chunk mode

/-- the exact estimate of a whole run: the feeder channel, the item in its hand, the collector's batch, and the chain -/
def Ctx.estimate (ctx : Ctx) (links : Links) : ℕ := ctx.feederRing + 1 + ctx.batchRecvCap + links.held ctx links.form

/-- jobs that go through the lease: those of a run on the pool -/
def Ctx.leased (ctx : Ctx) (jobs : ℕ) : ℕ := if ctx.dedicatedThreads then 0 else jobs

def Links.jobs (ctx : Ctx) : Links → ℕ
  | .start => 0
  | .stage _ prev opts _ => prev.jobs ctx + ctx.leased (ctx.requested opts)
  | .async prev _ _ _ => prev.jobs ctx
  | .fence prev _ _ _ => prev.jobs ctx + ctx.leased 1

/-- the slots that the reservation holds for the chain's stages -/
def Links.shares (ctx : Ctx) (links : Links) : ℕ := (links.chain.pins.map (share ctx.perStageParallelism ctx.n)).sum

/-! ## The budget in words -/

/-- the counters are exact, and the sum of the pins is right exactly when it is a word -/
theorem stageBudget_spec (links : Links) (h : links.count < 2 ^ 60) :
    links.stageBudget.stages = links.chain.stageBudget.stages ∧ links.stageBudget.fences = links.chain.stageBudget.fences ∧
      links.stageBudget.explicitStages = links.chain.stageBudget.explicitStages ∧
      Tracks links.stageBudget.explicitWorkers links.pinned ∧
      links.chain.stageBudget.stages + links.chain.stageBudget.fences ≤ links.count := by
  have hword : (2 : ℕ) ^ 60 < word := by decide
  induction links with
  | start => exact ⟨rfl, rfl, rfl, tracks_of 0, le_rfl⟩
  | stage kind prev opts bytes ih =>
    rw [Links.count] at h
    obtain ⟨hs, hf, he, hw, hc⟩ := ih (by omega)
    have hle := explicitStages_le prev.chain
    simp only [Links.stageBudget, Links.chain, Links.pinned, Chain.stageBudget, Links.count] at hw ⊢
    rcases opts.workers with _ | w
    · simp only [hs, hf, he]
      refine ⟨wrappingAdd_of_lt (by omega), trivial, trivial, hw, by omega⟩
    · simp only [hs, hf, he]
      exact ⟨wrappingAdd_of_lt (by omega), trivial, wrappingAdd_of_lt (by omega), hw.add (tracks_of w), by omega⟩
  | async prev opts i o ih =>
    rw [Links.count] at h
    obtain ⟨hs, hf, he, hw, hc⟩ := ih (by omega)
    refine ⟨hs, hf, he, hw, ?_⟩
    rw [Links.count]
    exact hc.trans (Nat.le_succ _)
  | fence prev buffer mode bytes ih =>
    rw [Links.count] at h
    obtain ⟨hs, hf, he, hw, hc⟩ := ih (by omega)
    simp only [Links.stageBudget, Links.chain, Links.pinned, Chain.stageBudget, Links.count] at hw ⊢
    rw [hf]
    exact ⟨hs, wrappingAdd_of_lt (by omega), he, hw, by omega⟩

/-- with the pins in range the code reads the exact budget -/
theorem read_stageBudget {links : Links} (h : links.count < 2 ^ 60) (hp : links.pinned < word) :
    links.stageBudget.read = links.chain.stageBudget := by
  obtain ⟨hs, hf, he, hw, -⟩ := stageBudget_spec links h
  rw [Budget.read, hs, hf, he, hw.eq hp]
  rfl

/-! ## Admission in words -/

theorem defaultWorkers_mul_le (budget : StageBudget) (k : ℕ) : (budget.stages - budget.explicitStages) * budget.defaultWorkers k ≤
    max (k - budget.explicitWorkers) (budget.stages - budget.explicitStages) := by
  unfold StageBudget.defaultWorkers
  dsimp only
  split_ifs with h0
  · rw [h0]
    simp
  · rcases Nat.le_total ((k - budget.explicitWorkers) / (budget.stages - budget.explicitStages)) 1 with h | h
    · rw [max_eq_right h, Nat.mul_one]
      exact le_max_right _ _
    · rw [max_eq_left h]
      exact (Nat.mul_div_le _ _).trans (le_max_left _ _)

section Admission

variable {links : Links} {config : PipelineConfig} {pool : Pool} {n : ℕ}

/-- the exact sum of the reservation -/
theorem need_exact : Admit.need links.chain.stageBudget config pool.toPoolView n = feederSlot config n + links.chain.stageBudget.fences +
    links.pinned + links.unpinned * min (Admit.perStage links.chain.stageBudget config pool.toPoolView n) n := rfl

theorem feederSlot_le (config : PipelineConfig) (n : ℕ) : feederSlot config n ≤ 1 := by
  unfold feederSlot
  split_ifs
  · exact le_rfl
  · exact Nat.zero_le 1

/-- the per-stage default of a pool run stays within the pool -/
theorem perStage_le (budget : StageBudget) : Admit.perStage budget config pool.toPoolView n ≤ 511 := by
  unfold Admit.perStage StageBudget.defaultWorkers
  dsimp only
  split_ifs
  · norm_num
  · refine max_le ?_ (by norm_num)
    calc _ ≤ min (workersBudget config pool.toPoolView) (pool.numWorkers -
            (pool.parkingUsed + feederSlot config n + budget.fences)) - budget.explicitWorkers := Nat.div_le_self _ _
      _ ≤ pool.numWorkers := by omega
      _ ≤ 511 := pool.le_max

/-- whether the exact sum is a word is decided by the pins and one worker for each unpinned stage -/
theorem need_lt_iff (hc : links.count < 2 ^ 60) (hn : 1 ≤ n) :
    Admit.need links.chain.stageBudget config pool.toPoolView n < word ↔
      feederSlot config n + links.chain.stageBudget.fences + links.pinned + links.unpinned < word := by
  obtain ⟨-, -, -, -, hcount⟩ := stageBudget_spec links hc
  have hone : 1 ≤ min (Admit.perStage links.chain.stageBudget config pool.toPoolView n) n :=
    le_min (one_le_defaultWorkers _ _) hn
  have hlow : links.unpinned ≤ links.unpinned * min (Admit.perStage links.chain.stageBudget config pool.toPoolView n) n :=
    Nat.le_mul_of_pos_right _ hone
  rw [need_exact]
  constructor
  · intro h
    omega
  · intro h
    have hfeed := feederSlot_le config n
    have hpool := pool.le_max
    have hword : 2 ^ 61 + 1024 < word := by decide
    have hup : links.unpinned ≤ links.count := by
      unfold Links.unpinned
      omega
    have hhigh : links.unpinned * min (Admit.perStage links.chain.stageBudget config pool.toPoolView n) n ≤
        max (pool.numWorkers - links.pinned) links.unpinned := by
      calc _ ≤ links.unpinned * Admit.perStage links.chain.stageBudget config pool.toPoolView n :=
            Nat.mul_le_mul_left _ (min_le_left _ _)
        _ ≤ _ := defaultWorkers_mul_le _ _
        _ ≤ max (pool.numWorkers - links.pinned) links.unpinned := by
            refine max_le_max ?_ le_rfl
            unfold Links.pinned
            omega
    -- below the pool size the pins leave room, above it every unpinned stage gets one worker
    rcases Nat.lt_or_ge links.pinned pool.numWorkers with hlt | hge
    · omega
    · rw [Nat.sub_eq_zero_of_le hge, Nat.zero_max] at hhigh
      omega

/-- the words of the per-stage default, with the pins in range -/
theorem perStage_exact (hc : links.count < 2 ^ 60) (hp : links.pinned < word) :
    perStage links.stageBudget config pool.toPoolView n = Admit.perStage links.chain.stageBudget config pool.toPoolView n := by
  obtain ⟨-, hf, -, -, hcount⟩ := stageBudget_spec links hc
  have hfeed := feederSlot_le config n
  have hmax := pool.le_max
  have hused := pool.used_le
  have hword : 2 ^ 60 + 512 < word := by decide
  simp only [perStage, Admit.perStage, read_stageBudget hc hp, hf]
  rw [wrappingAdd_of_lt (by omega : pool.parkingUsed + feederSlot config n < word), wrappingAdd_of_lt (by omega)]

/-- the sum `need` is right exactly when the exact sum is a word -/
theorem need_tracks (hc : links.count < 2 ^ 60) (hp : links.pinned < word) :
    Tracks (need links.stageBudget config pool.toPoolView n) (Admit.need links.chain.stageBudget config pool.toPoolView n) := by
  obtain ⟨hs, hf, he, hw, hcount⟩ := stageBudget_spec links hc
  have hword : 2 ^ 60 + 511 < word := by decide
  have hper := @perStage_le config pool n links.chain.stageBudget
  simp only [need, need_exact, perStage_exact hc hp, hs, hf, he]
  refine (((tracks_of _).add (tracks_of _)).add hw).add ((tracks_of _).mul (tracks_of _) ?_ ?_)
  · intro _
    omega
  · intro _
    omega

/-- **Admission in words**: with the pins and the sum in range it is the exact one, and its subtractions do not borrow -/
theorem resolveAdmission_exact (hc : links.count < 2 ^ 60) (hp : links.pinned < word)
    (hneed : pool.isOnThisPool = true ∨ Admit.need links.chain.stageBudget config pool.toPoolView n < word) :
    let a := resolveAdmission links.stageBudget config pool.toPoolView n
    let e := Admit.resolveAdmission links.chain.stageBudget config pool.toPoolView n
    a.need.wrapped = false ∧ a.reserved = e.reserved.map (fun r => ⟨r, false⟩) ∧ a.dedicatedThreads = e.dedicatedThreads ∧
      a.perStageParallelism = e.perStageParallelism ∧ a.workerSlotsLeft = ⟨e.workerSlotsLeft, false⟩ ∧
      a.stagesLeft = e.stagesLeft := by
  obtain ⟨hs, hf, -, -, -⟩ := stageBudget_spec links hc
  have hzero : Tracked.of 0 = ⟨0, false⟩ := rfl
  have hread := read_stageBudget hc hp
  intro a e
  by_cases hon : pool.isOnThisPool = true
  · simp only [a, e, resolveAdmission, Admit.resolveAdmission, hon, if_true, hread, hzero]
    exact ⟨trivial, rfl, trivial, trivial, trivial, trivial⟩
  · have hlt := hneed.resolve_left hon
    have hval := (@need_tracks links config pool n hc hp).eq hlt
    simp only [a, e, resolveAdmission, Admit.resolveAdmission, hon, Bool.false_eq_true, if_false, hread, hzero, hval,
      perStage_exact hc hp, hs, hf]
    split_ifs with hadm
    · rw [sub_exact hlt (by rw [need_exact]; omega), sub_exact (by omega) (by rw [need_exact]; omega)]
      exact ⟨rfl, rfl, rfl, rfl, rfl, rfl⟩
    · exact ⟨rfl, rfl, rfl, rfl, rfl, rfl⟩

end Admission

/-! ## The walk in words -/

/-- the cells can serve `stages` more stages, which are promised `slots` in all; a run on threads draws nothing -/
structure Stocked (ctx : Ctx) (stages slots : ℕ) (cells : Cells) : Prop where
  clean : cells.workerSlotsLeft.wrapped = false
  left : ctx.dedicatedThreads = false → cells.stagesLeft = stages ∧ stages < word
  enough : ctx.dedicatedThreads = false → slots ≤ cells.workerSlotsLeft.val ∧ cells.workerSlotsLeft.val < word

/-- the estimate and the lease's counter stand for these exact numbers -/
structure Accounts (held jobs : ℕ) (cells : Cells) : Prop where
  inFlight : Tracks cells.inFlight held
  spawned : Tracks cells.spawned jobs

section Walk

variable {ctx : Ctx} {cells : Cells} {stages slots held jobs : ℕ}

theorem Stocked.note (h : Stocked ctx stages slots cells) (items : Tracked) : Stocked ctx stages slots (cells.noteInFlight items) :=
  ⟨h.clean, h.left, h.enough⟩

theorem Stocked.spawn (h : Stocked ctx stages slots cells) (k : ℕ) : Stocked ctx stages slots (cells.spawnStageJobs ctx k) := by
  unfold Cells.spawnStageJobs
  split_ifs
  · exact h
  · exact ⟨h.clean, h.left, h.enough⟩

theorem Stocked.finalize (h : Stocked ctx stages slots cells) (async : Bool) : Stocked ctx stages slots (finalizePrevRx ctx async cells) := by
  unfold finalizePrevRx
  split_ifs
  · exact h.note _
  · exact h

theorem Stocked.shards (h : Stocked ctx stages slots cells) (sharded : Bool) (shards : ℕ) :
    Stocked ctx stages slots (if sharded then cells.noteShards shards else cells) := by
  split_ifs
  · exact h.note _
  · exact h

theorem Accounts.note (h : Accounts held jobs cells) {items : Tracked} {k : ℕ} (hk : Tracks items k) :
    Accounts (held + k) jobs (cells.noteInFlight items) := ⟨h.inFlight.add hk, h.spawned⟩

theorem Accounts.spawn (h : Accounts held jobs cells) (k : ℕ) :
    Accounts held (jobs + ctx.leased k) (cells.spawnStageJobs ctx k) := by
  unfold Cells.spawnStageJobs Ctx.leased
  split_ifs
  · exact h
  · exact ⟨h.inFlight, h.spawned.add (tracks_of k)⟩

theorem Accounts.finalize (h : Accounts held jobs cells) (async : Bool) :
    Accounts (held + ctx.bridged async) jobs (finalizePrevRx ctx async cells) := by
  unfold finalizePrevRx Ctx.bridged
  split_ifs
  · exact h.note ((tracks_of _).add (tracks_of 1))
  · exact h

/-- the lift of a sharded terminal; there is a shard, and no more than a word -/
theorem Accounts.shards (h : Accounts held jobs cells) (sharded : Bool) {shards : ℕ}
    (hs : sharded = true → 1 ≤ shards ∧ shards < word) :
    Accounts (held + Ctx.lifted sharded shards) jobs (if sharded then cells.noteShards shards else cells) := by
  unfold Ctx.lifted
  split_ifs with hb
  · obtain ⟨hone, hlt⟩ := hs hb
    refine h.note (Tracks.mul ?_ (tracks_of _) ?_ ?_)
    · rw [of_exact hlt, sub_exact hlt hone]
      exact tracks_exact (by omega)
    · intro _
      omega
    · intro _
      decide
  · exact h

theorem fenceHold_tracks (mode : FenceMode) : Tracks (ctx.fenceHold mode) (ctx.chunk mode) := by
  unfold Ctx.fenceHold Ctx.chunk
  rcases mode.chunkSize with _ | k
  · exact (tracks_of _).add (tracks_of _)
  · exact (tracks_of _).add (tracks_of _)

/-- a stage asks for what the exact model says it asks for -/
theorem requested_eq (hn : 1 ≤ ctx.n) (hp : 1 ≤ ctx.perStageParallelism) (opts : SyncStageOptions) :
    ctx.requested opts = asked ctx.perStageParallelism ctx.n opts.workers := by
  have hone := one_le_asked hp hn opts.workers
  unfold Ctx.requested
  rw [Nat.max_eq_left hn]
  rcases hw : opts.workers with _ | w
  · rw [hw] at hone
    exact Nat.max_eq_left hone
  · rw [hw] at hone
    exact Nat.max_eq_left hone

theorem requested_lt (hw : ctx.n < word) (opts : SyncStageOptions) : 1 ≤ ctx.requested opts ∧ ctx.requested opts < word := by
  have hword : 1 < word := by decide
  unfold Ctx.requested
  dsimp only
  refine ⟨le_max_right _ _, max_lt (lt_of_le_of_lt (min_le_right _ _) (max_lt hw hword)) hword⟩

/-- `stage_workers` grants what is asked for, and the subtraction from the slots does not borrow -/
theorem stageWorkers_spec (hn : 1 ≤ ctx.n) (hw : ctx.n < word) (hp : 1 ≤ ctx.perStageParallelism) (opts : SyncStageOptions)
    (h : Stocked ctx (stages + 1) (share ctx.perStageParallelism ctx.n opts.workers + slots) cells) (hle : stages ≤ slots)
    (ha : Accounts held jobs cells) : (stageWorkers ctx opts cells).1 = ctx.requested opts ∧
      Stocked ctx stages slots (stageWorkers ctx opts cells).2 ∧
      Accounts (held + ctx.claimed opts) jobs (stageWorkers ctx opts cells).2 := by
  obtain ⟨hone, hlt⟩ := requested_lt hw opts
  have hshare : ctx.requested opts ≤ share ctx.perStageParallelism ctx.n opts.workers := by
    rw [requested_eq hn hp]
    exact asked_le_share _ _ _
  by_cases hd : ctx.dedicatedThreads = true
  · simp only [stageWorkers, Ctx.claimed, hd, if_true, Nat.add_zero]
    refine ⟨trivial, ⟨h.clean, ?_, ?_⟩, ha⟩
    · intro hf
      rw [hd] at hf
      cases hf
    · intro hf
      rw [hd] at hf
      cases hf
  · have hfalse : ctx.dedicatedThreads = false := by simpa using hd
    obtain ⟨hleft, hfits⟩ := h.left hfalse
    obtain ⟨hslots, hsw⟩ := h.enough hfalse
    have hafter : wrappingSub cells.stagesLeft 1 = stages := by rw [hleft, wrappingSub_succ (by omega)]
    have hgrant : max (min (ctx.requested opts) (cells.workerSlotsLeft.val - stages)) 1 = ctx.requested opts := by omega
    have hexact : cells.workerSlotsLeft = ⟨cells.workerSlotsLeft.val, false⟩ := Tracked.ext rfl h.clean
    have hsub : cells.workerSlotsLeft - Tracked.of (ctx.requested opts) =
        ⟨cells.workerSlotsLeft.val - ctx.requested opts, false⟩ := by
      rw [hexact]
      exact sub_exact hsw (by omega)
    simp only [stageWorkers, Ctx.claimed, hfalse, Bool.false_eq_true, if_false, hafter, hgrant, hsub]
    refine ⟨trivial, ⟨rfl, ?_, ?_⟩, ?_⟩
    · intro _
      exact ⟨rfl, by omega⟩
    · intro _
      change _ ≤ cells.workerSlotsLeft.val - ctx.requested opts ∧ cells.workerSlotsLeft.val - ctx.requested opts < word
      omega
    · have hscratch : 1 ≤ ctx.scratch := le_max_right _ _
      have hbatch : Tracks (Tracked.of (ctx.requested opts) * Tracked.of ctx.scratch) (ctx.requested opts * ctx.scratch) := by
        refine (tracks_of _).mul (tracks_of _) ?_ ?_
        · intro h0
          omega
        · intro h0
          omega
      exact ⟨ha.inFlight.add hbatch, ha.spawned⟩

theorem stageIoConcurrency_lt (hw : ctx.n < word) (opts : AsyncStageOptions) : ctx.stageIoConcurrency opts < word := by
  have hword : 1 < word := by decide
  unfold Ctx.stageIoConcurrency
  dsimp only
  exact lt_of_le_of_lt (min_le_right _ _) (max_lt hw hword)

theorem shardedAsyncTerminal_le (concurrency : ℕ) : ctx.shardedAsyncTerminal concurrency ≤ concurrency := by
  unfold Ctx.shardedAsyncTerminal
  split_ifs
  · exact Nat.zero_le _
  · exact min_le_left _ _

theorem Accounts.consumers (hw : ctx.n < word) (h : Accounts held jobs cells) (opts : AsyncStageOptions) (outBytes : ℕ) (form : Form) :
    Accounts (held + ctx.awaited opts outBytes form) jobs (spawnAsyncConsumers ctx opts outBytes form cells) := by
  have hle := @shardedAsyncTerminal_le ctx (ctx.stageIoConcurrency opts)
  have hlt := stageIoConcurrency_lt hw opts
  unfold spawnAsyncConsumers Ctx.awaited stageBuffer
  dsimp only
  rw [← Nat.add_assoc, ← Nat.add_assoc]
  refine ((h.note (tracks_of _)).note (tracks_of _)).shards _ ?_
  intro hs
  have hpos : 0 < ctx.shardedAsyncTerminal (ctx.stageIoConcurrency opts) := by
    rw [Bool.and_eq_true, decide_eq_true_eq] at hs
    exact hs.2
  omega

theorem Stocked.consumers (h : Stocked ctx stages slots cells) (opts : AsyncStageOptions) (outBytes : ℕ) (form : Form) :
    Stocked ctx stages slots (spawnAsyncConsumers ctx opts outBytes form cells) := ((h.note _).note _).shards _ _

theorem shares_stage (kind : StageKind) (prev : Links) (opts : SyncStageOptions) (bytes : ℕ) :
    (Links.stage kind prev opts bytes).shares ctx = prev.shares ctx + share ctx.perStageParallelism ctx.n opts.workers := by
  simp [Links.shares, Links.chain, Chain.pins]

theorem stages_stage (kind : StageKind) (prev : Links) (opts : SyncStageOptions) (bytes : ℕ) :
    (Links.stage kind prev opts bytes).chain.stageBudget.stages = prev.chain.stageBudget.stages + 1 := by
  simp only [Links.chain, Chain.stageBudget]
  cases opts.workers <;> rfl

theorem spawnWalk_stage {kind : StageKind} {prev : Links} {opts : SyncStageOptions} {bytes k : ℕ} {form : Form} {c : Cells}
    (hc : c = finalizePrevRx ctx (prev.handsAsync form.intoSync) (prev.spawnWalk ctx form.intoSync cells))
    (hk : (stageWorkers ctx opts c).1 = k) : (Links.stage kind prev opts bytes).spawnWalk ctx form cells =
      (if terminal form && ctx.shardedTerminal k then (stageBuffer ctx bytes opts.buffer k (stageWorkers ctx opts c).2).noteShards k
        else stageBuffer ctx bytes opts.buffer k (stageWorkers ctx opts c).2).spawnStageJobs ctx k := by
  subst hc hk
  rfl

/-- **The walk in words**, in every form: by induction on the chain, the upstream part first. `stages` more stages with
`slots` slots stand behind the chain. -/
theorem spawnWalk_spec (hn : 1 ≤ ctx.n) (hw : ctx.n < word) (hp : 1 ≤ ctx.perStageParallelism) (links : Links) :
    ∀ (form : Form) {stages slots held jobs : ℕ} {cells : Cells},
    Stocked ctx (links.chain.stageBudget.stages + stages) (links.shares ctx + slots) cells → stages ≤ slots →
    Accounts held jobs cells → Stocked ctx stages slots (links.spawnWalk ctx form cells) ∧
      Accounts (held + links.held ctx form) (jobs + links.jobs ctx) (links.spawnWalk ctx form cells) := by
  induction links with
  | start =>
    intro form stages slots held jobs cells hs _ ha
    simp only [Links.chain, Chain.stageBudget, Links.shares, Chain.pins, List.map_nil, List.sum_nil, Nat.zero_add] at hs
    exact ⟨hs, ha⟩
  | stage kind prev opts bytes ih =>
    intro form stages slots held jobs cells hs hle ha
    have hone : 1 ≤ share ctx.perStageParallelism ctx.n opts.workers :=
      (one_le_asked hp hn opts.workers).trans (asked_le_share _ _ _)
    rw [stages_stage, shares_stage, Nat.add_assoc, Nat.add_assoc, Nat.add_comm 1 stages] at hs
    obtain ⟨hs1, ha1⟩ := ih form.intoSync hs (by omega) ha
    obtain ⟨hgrant, hs2, ha2⟩ := stageWorkers_spec hn hw hp opts (hs1.finalize (prev.handsAsync form.intoSync)) hle
      (ha1.finalize (prev.handsAsync form.intoSync))
    have ha3 := (ha2.note (tracks_of (ctx.capacity bytes opts.buffer (ctx.requested opts)))).shards
      (terminal form && ctx.shardedTerminal (ctx.requested opts)) fun _ => requested_lt hw opts
    rw [spawnWalk_stage rfl hgrant]
    refine ⟨((hs2.note _).shards _ _).spawn _, ?_⟩
    simp only [Links.held, Links.jobs, ← Nat.add_assoc]
    exact ha3.spawn _
  | async prev opts i o ih =>
    intro form stages slots held jobs cells hs hle ha
    obtain ⟨hs1, ha1⟩ := ih form.intoAsync hs hle ha
    simp only [Links.spawnWalk, Links.held, Links.jobs, ← Nat.add_assoc]
    split_ifs
    · exact ⟨(hs1.note _).consumers opts o form, (ha1.note (tracks_of _)).consumers hw opts o form⟩
    · exact ⟨hs1.consumers opts o form, ha1.consumers hw opts o form⟩
  | fence prev buffer mode bytes ih =>
    intro form stages slots held jobs cells hs hle ha
    obtain ⟨hs1, ha1⟩ := ih form.intoSync hs hle ha
    rw [Links.spawnWalk, stageBuffer]
    refine ⟨(((hs1.finalize _).note _).note _).spawn 1, ?_⟩
    simp only [Links.held, Links.jobs, ← Nat.add_assoc]
    exact (((ha1.finalize _).note (tracks_of _)).note (fenceHold_tracks mode)).spawn 1

end Walk

theorem leased_le (ctx : Ctx) (k : ℕ) : ctx.leased k ≤ k := by
  unfold Ctx.leased
  split_ifs
  · exact Nat.zero_le k
  · exact le_rfl

/-- the jobs of the chain stay within the slots reserved for its fences and stages -/
theorem jobs_le (ctx : Ctx) (hn : 1 ≤ ctx.n) (hp : 1 ≤ ctx.perStageParallelism) (links : Links) :
    links.jobs ctx ≤ links.chain.stageBudget.fences + links.shares ctx := by
  induction links with
  | start => exact Nat.zero_le _
  | stage kind prev opts bytes ih =>
    have hasked := (requested_eq hn hp opts).trans_le (asked_le_share ctx.perStageParallelism ctx.n opts.workers)
    have hleased := leased_le ctx (ctx.requested opts)
    have hfences : (Links.stage kind prev opts bytes).chain.stageBudget.fences = prev.chain.stageBudget.fences := by
      simp only [Links.chain, Chain.stageBudget]
      cases opts.workers <;> rfl
    rw [shares_stage, hfences, Links.jobs]
    omega
  | async prev opts i o ih => exact ih
  | fence prev buffer mode bytes ih =>
    have hleased := leased_le ctx 1
    have hfences : (Links.fence prev buffer mode bytes).chain.stageBudget.fences = prev.chain.stageBudget.fences + 1 := rfl
    have hshares : (Links.fence prev buffer mode bytes).shares ctx = prev.shares ctx := rfl
    rw [hfences, hshares, Links.jobs]
    omega

/-! ## A run in words -/

/-- no tracked number of the run carries a mark -/
structure Ledger.InRange (l : Ledger) : Prop where
  explicitWorkers : l.explicitWorkers.wrapped = false
  need : l.need.wrapped = false
  workerBudget : l.workerBudget.wrapped = false
  slotsLeft : l.slotsLeft.wrapped = false
  remainder : l.remainder.wrapped = false
  inFlight : l.inFlight.wrapped = false

/-- the jobs the feeder adds -/
def Ctx.feederJobs (ctx : Ctx) : ℕ := if ctx.n ≤ ctx.feederRing then 0 else ctx.leased 1

theorem routeFeeder_spec {ctx : Ctx} (hn : 1 ≤ ctx.n) (hw : ctx.n < word) (hp : 1 ≤ ctx.perStageParallelism) (links : Links)
    {slots : Tracked} {stagesLeft : ℕ}
    (hs : Stocked ctx links.chain.stageBudget.stages (links.shares ctx) ⟨slots, stagesLeft, Tracked.of 0, Tracked.of 0⟩) :
    (routeFeeder ctx links ⟨slots, stagesLeft, Tracked.of 0, Tracked.of 0⟩).workerSlotsLeft.wrapped = false ∧
      Accounts (ctx.estimate links) (ctx.feederJobs + links.jobs ctx)
        (routeFeeder ctx links ⟨slots, stagesLeft, Tracked.of 0, Tracked.of 0⟩) := by
  have ha : Accounts 0 0 ⟨slots, stagesLeft, Tracked.of 0, Tracked.of 0⟩ := ⟨tracks_of 0, tracks_of 0⟩
  have hring := ((tracks_of ctx.feederRing).add (tracks_of 1)).add (tracks_of ctx.batchRecvCap)
  have hs0 : Stocked ctx (links.chain.stageBudget.stages + 0) (links.shares ctx + 0) _ := hs
  have hs1 := hs0.note (Tracked.of ctx.feederRing + Tracked.of 1 + Tracked.of ctx.batchRecvCap)
  have ha1 := ha.note hring
  rw [Nat.zero_add] at ha1
  unfold routeFeeder Ctx.feederJobs Ctx.estimate
  dsimp only
  split_ifs
  · obtain ⟨h1, h2⟩ := spawnWalk_spec hn hw hp links links.form hs1 le_rfl ha1
    exact ⟨h1.clean, h2⟩
  · have ha2 := @Accounts.spawn ctx _ _ _ ha1 1
    rw [Nat.zero_add] at ha2
    obtain ⟨h1, h2⟩ := spawnWalk_spec hn hw hp links links.form (hs1.spawn 1) le_rfl ha2
    exact ⟨h1.clean, h2⟩

namespace StreamRun

variable (run : StreamRun)

/-- the admission of the run over exact naturals -/
def exact : Admit.Admission := Admit.resolveAdmission run.links.chain.stageBudget run.config run.pool.toPoolView run.n

def exactCtx : Ctx := run.ctx run.exact.dedicatedThreads run.exact.perStageParallelism

/-- **When the arithmetic is right.** Off the pool's own workers, the feeder, the fences, all pins and one worker for each
unpinned stage add up to a word (on a worker of the pool the code adds up the pins alone); and so does the exact estimate. -/
structure Fits : Prop where
  pins : run.links.pinned < word
  need : run.pool.isOnThisPool = false →
    feederSlot run.config run.n + run.links.chain.stageBudget.fences + run.links.pinned + run.links.unpinned < word
  estimate : run.exactCtx.estimate run.links < word

theorem one_le_perStage : 1 ≤ run.exact.perStageParallelism := by
  unfold exact Admit.resolveAdmission
  dsimp only
  split_ifs <;> exact one_le_defaultWorkers _ _

/-- the exact sum `need` -/
def exactNeed : ℕ := Admit.need run.links.chain.stageBudget run.config run.pool.toPoolView run.n

/-- what an admission to the pool carries -/
theorem exact_pool (h : run.exact.dedicatedThreads = false) : run.exactNeed ≤ run.pool.numWorkers ∧
    run.exact = ⟨some run.exactNeed, false, Admit.perStage run.links.chain.stageBudget run.config run.pool.toPoolView run.n,
      run.exactNeed - feederSlot run.config run.n - run.links.chain.stageBudget.fences, run.links.chain.stageBudget.stages⟩ :=
  resolveAdmission_pool h

/-- the stage part of the reservation is the sum of the stages' shares -/
theorem exactNeed_eq (h : run.exact.dedicatedThreads = false) : run.exactNeed =
    feederSlot run.config run.n + run.links.chain.stageBudget.fences + run.links.shares run.exactCtx := by
  obtain ⟨-, ha⟩ := run.exact_pool h
  have hper : run.exactCtx.perStageParallelism = Admit.perStage run.links.chain.stageBudget run.config run.pool.toPoolView run.n := by
    change run.exact.perStageParallelism = _
    rw [ha]
  have hn : run.exactCtx.n = run.n := rfl
  have hshares := shares_eq run.links.chain (Admit.perStage run.links.chain.stageBudget run.config run.pool.toPoolView run.n) run.n
  rw [Links.shares, hper, hn, ← hshares, exactNeed, need_exact]
  unfold Links.pinned Links.unpinned
  omega

/-- the exact admission stocks the walk -/
theorem stocked_exact : Stocked run.exactCtx run.links.chain.stageBudget.stages (run.links.shares run.exactCtx)
    ⟨⟨run.exact.workerSlotsLeft, false⟩, run.exact.stagesLeft, Tracked.of 0, Tracked.of 0⟩ := by
  obtain ⟨-, -, -, -, hcount⟩ := stageBudget_spec run.links run.fits
  have hword : 2 ^ 60 < word := by decide
  have hfits := run.fits
  refine ⟨rfl, ?_, ?_⟩
  · intro hd
    obtain ⟨-, ha⟩ := run.exact_pool hd
    have hleft : run.exact.stagesLeft = run.links.chain.stageBudget.stages := by rw [ha]
    exact ⟨hleft, by omega⟩
  · intro hd
    have hsum := run.exactNeed_eq hd
    have hmax := run.pool.le_max
    obtain ⟨hle, ha⟩ := run.exact_pool hd
    have hslots : run.exact.workerSlotsLeft = run.links.shares run.exactCtx := by
      rw [ha]
      dsimp only
      omega
    dsimp only
    omega

/-- the per-stage default of an admitted run is small enough for its capacities not to wrap -/
theorem feederRing_exact (h : run.exact.dedicatedThreads = false) :
    run.exactCtx.feederRing = run.exactCtx.toStreamCtx.feederBuffer := by
  obtain ⟨-, ha⟩ := run.exact_pool h
  have hword : 511 * 4 < word := by decide
  have hper : run.exactCtx.perStageParallelism ≤ 511 := by
    change run.exact.perStageParallelism ≤ 511
    rw [ha]
    exact perStage_le _
  have hcap : run.exactCtx.bufferSize run.exactCtx.perStageParallelism =
      flooredChannelCapacity run.exactCtx.config.bufferSize run.exactCtx.perStageParallelism := by
    unfold Ctx.bufferSize flooredCapacity flooredChannelCapacity
    rw [Nat.mod_eq_of_lt (by omega)]
  unfold Ctx.feederRing StreamCtx.feederBuffer
  rw [hcap]
  rfl

/-- on the pool the feeder and the chain's jobs stay within the reservation -/
theorem jobs_reserved (h : run.exact.dedicatedThreads = false) :
    run.exactCtx.feederJobs + run.links.jobs run.exactCtx ≤ run.exactNeed := by
  have hsum := run.exactNeed_eq h
  have hjobs := jobs_le run.exactCtx run.items run.one_le_perStage run.links
  have hfeeder : run.exactCtx.feederJobs ≤ feederSlot run.config run.n := by
    refine le_trans ?_ (@feeder_predicted run.exactCtx.toStreamCtx run.one_le_perStage)
    unfold Ctx.feederJobs
    rw [run.feederRing_exact h]
    split_ifs
    · exact le_rfl
    · exact leased_le _ 1
  omega

/-- a run on threads has no lease -/
theorem reserved_dedicated (h : run.exact.dedicatedThreads = true) : run.exact.reserved = none := by
  unfold exact Admit.resolveAdmission at h ⊢
  dsimp only at h ⊢
  split_ifs at h ⊢ <;> rfl

/-- the drop of the lease does not borrow -/
theorem dropLease_exact {spawned : Tracked} (h : Tracks spawned (run.exactCtx.feederJobs + run.links.jobs run.exactCtx)) :
    (dropLease (run.exact.reserved.map fun r => ⟨r, false⟩) spawned).wrapped = false := by
  by_cases hd : run.exact.dedicatedThreads = true
  · rw [run.reserved_dedicated hd]
    rfl
  · have hfalse : run.exact.dedicatedThreads = false := by simpa using hd
    obtain ⟨hle, ha⟩ := run.exact_pool hfalse
    have hjobs := run.jobs_reserved hfalse
    have hword : 511 < word := by decide
    have hmax := run.pool.le_max
    have hspawned : spawned = Tracked.of (run.exactCtx.feederJobs + run.links.jobs run.exactCtx) := by
      rw [h.eq (by omega), of_exact (by omega)]
    have hreserved : run.exact.reserved = some run.exactNeed := by rw [ha]
    rw [hreserved, hspawned, Option.map_some, dropLease, sub_exact (by omega) hjobs]

/-- **A run whose pins and `need` are words**: it is admitted as the exact run is, nothing borrows, and the estimate is right
exactly when its exact total is a word -/
theorem execStream_spec (hp : run.links.pinned < word) (hneed : run.pool.isOnThisPool = true ∨ run.exactNeed < word) :
    Tracks run.execStream.inFlight (run.exactCtx.estimate run.links) ∧
      (run.execStream.inFlight.wrapped = false → run.execStream.InRange) ∧
      run.execStream.dedicatedThreads = run.exact.dedicatedThreads ∧ run.execStream.reserved = run.exact.reserved := by
  obtain ⟨-, -, -, hpins, -⟩ := stageBudget_spec run.links run.fits
  obtain ⟨hn, hres, hded, hper, hslots, hleft⟩ := resolveAdmission_exact run.fits hp hneed
  obtain ⟨hclean, hacc⟩ := routeFeeder_spec run.items run.length run.one_le_perStage run.links run.stocked_exact
  obtain ⟨cells, hcells⟩ : ∃ cells, cells = routeFeeder run.exactCtx run.links
    ⟨⟨run.exact.workerSlotsLeft, false⟩, run.exact.stagesLeft, Tracked.of 0, Tracked.of 0⟩ := ⟨_, rfl⟩
  rw [← hcells] at hclean hacc
  have hrun : run.execStream = ⟨run.links.stageBudget.explicitWorkers,
      (resolveAdmission run.links.stageBudget run.config run.pool.toPoolView run.n).need, ⟨run.exact.workerSlotsLeft, false⟩,
      cells.workerSlotsLeft, dropLease (run.exact.reserved.map fun r => ⟨r, false⟩) cells.spawned, cells.inFlight,
      run.exact.dedicatedThreads, run.exact.reserved⟩ := by
    have hback : (run.exact.reserved.map fun r => (⟨r, false⟩ : Tracked)).map Tracked.val = run.exact.reserved := by
      rw [Option.map_map]
      exact Option.map_id'
    unfold execStream
    dsimp only
    rw [hres, hded, hper, hslots, hleft, hcells]
    exact congrArg _ hback
  rw [hrun]
  refine ⟨hacc.inFlight, ?_, rfl, rfl⟩
  intro h
  exact ⟨hpins.mark.2 hp, hn, rfl, hclean, run.dropLease_exact hacc.spawned, h⟩

/-- off the pool's own workers the run computes `need` -/
theorem execStream_need (h : run.pool.isOnThisPool = false) :
    run.execStream.need = need run.links.stageBudget run.config run.pool.toPoolView run.n := by
  unfold execStream resolveAdmission
  dsimp only
  rw [h]
  simp only [Bool.false_eq_true, if_false]
  split_ifs <;> rfl

/-- pins above the pool put the exact run on threads -/
theorem exact_dedicated (h : run.pool.numWorkers < run.links.pinned) : run.exact.dedicatedThreads = true := by
  by_contra hd
  have hfalse : run.exact.dedicatedThreads = false := by simpa using hd
  obtain ⟨hle, -⟩ := run.exact_pool hfalse
  rw [exactNeed, need_exact] at hle
  omega

/-- pins above the pool mean threads, and no lease -/
def FallsBack (l : Ledger) : Prop := run.pool.numWorkers < run.links.pinned → l.dedicatedThreads = true ∧ l.reserved = none

/-- **The arithmetic of a streaming run** is right, and pins above the pool mean threads, exactly under `Fits` -/
theorem execStream_in_range : run.execStream.InRange ∧ run.FallsBack run.execStream ↔ run.Fits := by
  obtain ⟨-, -, -, hpins, -⟩ := stageBudget_spec run.links run.fits
  have hiff := @need_lt_iff run.links run.config run.pool run.n run.fits run.items
  constructor
  · rintro ⟨hl, -⟩
    have hp : run.links.pinned < word := hpins.mark.1 hl.explicitWorkers
    have hneed : run.pool.isOnThisPool = false → run.exactNeed < word := by
      intro hon
      apply (@need_tracks run.links run.config run.pool run.n run.fits hp).mark.1
      rw [← run.execStream_need hon]
      exact hl.need
    have hsum : run.pool.isOnThisPool = true ∨ run.exactNeed < word := (Bool.eq_false_or_eq_true _).imp_right hneed
    exact ⟨hp, fun hon => hiff.1 (hneed hon), (run.execStream_spec hp hsum).1.mark.1 hl.inFlight⟩
  · rintro ⟨hp, hneed, hest⟩
    have hsum : run.pool.isOnThisPool = true ∨ run.exactNeed < word :=
      (Bool.eq_false_or_eq_true _).imp_right fun hon => hiff.2 (hneed hon)
    obtain ⟨htracks, hrange, hded, hres⟩ := run.execStream_spec hp hsum
    refine ⟨hrange (htracks.mark.2 hest), ?_⟩
    intro hover
    have hthreads := run.exact_dedicated hover
    rw [hded, hres]
    exact ⟨hthreads, run.reserved_dedicated hthreads⟩

end StreamRun

end YouPipe.Usize
