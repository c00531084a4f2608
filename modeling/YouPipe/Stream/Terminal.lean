/-
The receivers that a spawn walk hands on (`finalize_prev_rx`, `bridge_final_rx_to_async`, the `StageSpawn` impls, the channel
factories and `route_feeder` in `builder/typed/stream.rs`). A walk enters a chain through one of five forms. `spawn` and
`spawn_async_feeder` must hand on a receiver for several consumers, since the next link's workers share it; the `_single` forms
must hand the collector one for a single consumer. The link behind converts whatever it gets, and panics on the other variants.

Here a walk carries its receivers and its panics. The rest is as in `Stream/Arithmetic.lean`: the chain with all its options, the
context, and the cells, whose slots remember whether `stage_workers` granted more than was left. The runtime is built once per
run or attached to it, so every `acquire_async` of a run has the same outcome, `runtimeOk`. What the spawned workers, tasks and
bridges do is in `Stream/Chain.lean`; the five kinds of pool stage, and the two of async stage, differ only in that.

`terminal_shape`: from any cells, every form over every chain ends with a receiver of the right kind, and with the cells of
`Links.spawnWalk`; the one panic left is a runtime that cannot be built, which `exec_stream` rules out before the walk.
-/
import Mathlib.Tactic
import YouPipe.Core.Ends
import YouPipe.Stream.Arithmetic

namespace YouPipe.Terminal

open YouPipe.Word
open YouPipe.Admit (SyncStageOptions Form)
open YouPipe.Usize (Links Cells AsyncStageOptions FenceMode fedAsync)

/-! ## Receivers -/

/-- the shared ring of `channel` -/
structure Receiver where
  capacity : ℕ
deriving DecidableEq, Repr

/-- the ring of `mpsc_channel` -/
structure MpscReceiver where
  capacity : ℕ
deriving DecidableEq, Repr

/-- the rings of `sharded_mpsc_channel`, one per worker -/
structure ShardedReceiver where
  shards : ℕ
  capacity : ℕ
deriving DecidableEq, Repr

/-- the shared ring of `async_channel`, or of `sync_async_channel`, which OS threads write -/
structure AsyncReceiver where
  capacity : ℕ
deriving DecidableEq, Repr

structure MpscAsyncReceiver where
  capacity : ℕ
deriving DecidableEq, Repr

structure ShardedAsyncReceiver where
  shards : ℕ
  capacity : ℕ
deriving DecidableEq, Repr

inductive FinalRx where
  | sync (rx : Receiver)
  | syncSingle (rx : MpscReceiver)
  | syncSharded (rx : ShardedReceiver)
  | async (rx : AsyncReceiver)
  | asyncSingle (rx : MpscAsyncReceiver)
  | asyncSharded (rx : ShardedAsyncReceiver)
deriving DecidableEq, Repr

/-- what the next link can take -/
def FinalRx.isMulti : FinalRx → Bool
  | .sync _ => true
  | .async _ => true
  | _ => false

/-- the `matches!` of the terminal assertion -/
def FinalRx.isSingle : FinalRx → Bool
  | .syncSingle _ => true
  | .syncSharded _ => true
  | .asyncSingle _ => true
  | .asyncSharded _ => true
  | _ => false

def FinalRx.isAsync : FinalRx → Bool
  | .async _ => true
  | .asyncSingle _ => true
  | .asyncSharded _ => true
  | _ => false

/-! ## Walks -/

/-- where a walk may panic: an `unreachable!` arm, the runtime that cannot be built, a sharded channel without shards, a fence
without a sender, the terminal assertion -/
inductive Panic where
  | unreachable (text : String)
  | runtime
  | shards
  | sender
  | terminal
deriving DecidableEq, Repr

/-- the context with the outcome of `acquire_async`, which is the same for every caller of a run -/
structure Ctx extends Usize.Ctx where
  runtimeOk : Bool

/-- a part of a walk: the cells of the run pass through it, and it may panic -/
abbrev Walk := StateT Cells (Except Panic)

def noteInFlight (items : Tracked) : Walk Unit := modify fun cells => cells.noteInFlight items

/-- `acquire_async` and the `expect` behind each of its calls -/
def acquireAsync (ctx : Ctx) : Walk Unit := if ctx.runtimeOk then pure () else throw .runtime

def stageWorkers (ctx : Ctx) (opts : SyncStageOptions) : Walk ℕ := modifyGet (Usize.stageWorkers ctx.toCtx opts)

def stageBuffer (ctx : Ctx) (slotBytes : ℕ) (buffer : Option ℕ+) (parallelism : ℕ) : Walk ℕ := do
  let resolved := ctx.capacity slotBytes buffer parallelism
  noteInFlight (Tracked.of resolved)
  return resolved

def spawnStageJobs (ctx : Ctx) (jobs : ℕ) : Walk Unit := modify fun cells => cells.spawnStageJobs ctx.toCtx jobs

/-! ## Receivers of a previous stage -/

/-- a thread that blocks on the runtime -/
def bridgeAsyncToSync (ctx : Ctx) (_rx : AsyncReceiver) : Walk Receiver := do
  let buffer := ctx.bufferSize ctx.perStageParallelism
  noteInFlight (Tracked.of buffer + Tracked.of 1)
  acquireAsync ctx
  return ⟨buffer⟩

def finalizePrevRx (ctx : Ctx) : FinalRx → Walk Receiver
  | .sync r => return r
  | .syncSingle _ => throw (.unreachable "prev.spawn() never returns SyncSingle")
  | .syncSharded _ => throw (.unreachable "prev.spawn() never returns SyncSharded")
  | .async r => bridgeAsyncToSync ctx r
  | .asyncSingle _ => throw (.unreachable "prev.spawn() never returns AsyncSingle")
  | .asyncSharded _ => throw (.unreachable "prev.spawn() never returns AsyncSharded")

def bridgeFinalRxToAsync (ctx : Ctx) (buffer : ℕ) : FinalRx → Walk AsyncReceiver
  | .sync _ => return ⟨buffer⟩
  | .syncSingle _ => throw (.unreachable "spawn_async_feeder path never produces SyncSingle")
  | .syncSharded _ => throw (.unreachable "spawn_async_feeder path never produces SyncSharded")
  | .async _ => do
    acquireAsync ctx
    return ⟨buffer⟩
  | .asyncSingle _ => throw (.unreachable "spawn_async_feeder path never produces AsyncSingle")
  | .asyncSharded _ => throw (.unreachable "spawn_async_feeder path never produces AsyncSharded")

/-! ## Output channels -/

/-- `OutChannel` and `AsyncOutChannel`; a sender is the number of the ring it writes -/
structure OutChannel (Out : Type) where
  Rx : Type
  make : Ctx → ℕ → ℕ → Walk (List ℕ × Rx)
  wrap : Rx → Out

/-- one sender and its clones; at least one, whatever `workers` is -/
def cloneFanout (workers : ℕ) : List ℕ := List.replicate (workers - 1) 0 ++ [0]

/-- a factory over one shared ring -/
def OutChannel.shared {Rx Out : Type} (channel : ℕ → Rx) (wrap : Rx → Out) : OutChannel Out where
  Rx := Rx
  make _ buffer workers := return (cloneFanout workers, channel buffer)
  wrap := wrap

def mpmc : OutChannel FinalRx := .shared Receiver.mk .sync

def mpsc : OutChannel FinalRx := .shared MpscReceiver.mk .syncSingle

/-- `Mixed` hands over the bare receiver -/
def mixed : OutChannel AsyncReceiver := .shared AsyncReceiver.mk id

def asyncMpmc : OutChannel AsyncReceiver := .shared AsyncReceiver.mk id

def asyncMpsc : OutChannel FinalRx := .shared MpscAsyncReceiver.mk .asyncSingle

/-- the estimate of a sharded channel beyond its logical capacity -/
def noteShards (shards : ℕ) : Walk Unit := modify fun cells => cells.noteShards shards

def shardedMpsc : OutChannel FinalRx where
  Rx := ShardedReceiver
  make _ buffer workers := do
    noteShards workers
    if workers = 0 then throw .shards
    return (List.range workers, ⟨workers, max (buffer / workers) Usize.MIN_SHARD_BUFFER⟩)
  wrap := .syncSharded

def asyncSharded : OutChannel FinalRx where
  Rx := ShardedAsyncReceiver
  make ctx buffer tasks := do
    let shards := ctx.shardedAsyncTerminal tasks
    if shards = 0 then throw .shards
    noteShards shards
    -- a task keeps its shard for life, and shares it with others when there are more tasks than shards
    return ((List.range tasks).map (· % shards), ⟨shards, max (buffer / shards) Usize.MIN_SHARD_BUFFER⟩)
  wrap := .asyncSharded

/-! ## Spawn cores -/

variable {Out : Type}

/-- `spawn_stage_into` and its twins of the other kinds: one job for each sender -/
def spawnStageInto (ch : OutChannel Out) (ctx : Ctx) (opts : SyncStageOptions) (slotBytes : ℕ) (_midRx : Receiver)
    (parallelism : ℕ) : Walk Out := do
  let buffer ← stageBuffer ctx slotBytes opts.buffer parallelism
  let (txs, outRx) ← ch.make ctx buffer parallelism
  spawnStageJobs ctx txs.length
  return ch.wrap outRx

def spawnStageTerminal (ctx : Ctx) (opts : SyncStageOptions) (slotBytes : ℕ) (midRx : Receiver) (parallelism : ℕ) :
    Walk FinalRx :=
  if ctx.shardedTerminal parallelism then spawnStageInto shardedMpsc ctx opts slotBytes midRx parallelism
  else spawnStageInto mpsc ctx opts slotBytes midRx parallelism

/-- `spawn_fence_into` with `spawn_forwarder`: a single job -/
def spawnFenceInto (ch : OutChannel Out) (ctx : Ctx) (buffer : Option ℕ+) (mode : FenceMode) (slotBytes : ℕ) (_midRx : Receiver) :
    Walk Out := do
  let buffer ← stageBuffer ctx slotBytes buffer ctx.perStageParallelism
  let (txs, fencedRx) ← ch.make ctx buffer 1
  if txs.getLast? = none then throw .sender
  noteInFlight (ctx.fenceHold mode)
  spawnStageJobs ctx 1
  return ch.wrap fencedRx

def spawnAsyncConsumersInto (ch : OutChannel Out) (ctx : Ctx) (opts : AsyncStageOptions) (slotBytes : ℕ) (_aInRx : AsyncReceiver) :
    Walk Out := do
  let concurrency := ctx.stageIoConcurrency opts
  let buffer ← stageBuffer ctx slotBytes opts.buffer concurrency
  noteInFlight (Tracked.of concurrency)
  let (_senders, outRx) ← ch.make ctx buffer concurrency
  acquireAsync ctx
  return ch.wrap outRx

def spawnAsyncConsumersTerminal (ctx : Ctx) (opts : AsyncStageOptions) (slotBytes : ℕ) (aInRx : AsyncReceiver) : Walk FinalRx :=
  if 0 < ctx.shardedAsyncTerminal (ctx.stageIoConcurrency opts) then
    spawnAsyncConsumersInto asyncSharded ctx opts slotBytes aInRx
  else spawnAsyncConsumersInto asyncMpsc ctx opts slotBytes aInRx

/-! ## The five forms -/

mutual

/-- `spawn`; that of an async stage is its own `spawn_for_async` (`spawn_async`) -/
def spawn (ctx : Ctx) : Links → Receiver → Walk FinalRx
  | .start, rx => return .sync rx
  | .stage _ prev opts slotBytes, rx => do
    let midRx ← finalizePrevRx ctx (← spawn ctx prev rx)
    let parallelism ← stageWorkers ctx opts
    spawnStageInto mpmc ctx opts slotBytes midRx parallelism
  | .async prev opts _ outBytes, rx => do
    let aInRx ← spawnForAsync ctx prev rx
    return .async (← spawnAsyncConsumersInto asyncMpmc ctx opts outBytes aInRx)
  | .fence prev buffer mode slotBytes, rx => do
    let midRx ← finalizePrevRx ctx (← spawn ctx prev rx)
    spawnFenceInto mpmc ctx buffer mode slotBytes midRx

/-- `spawn_for_async`: the receiver of the next async stage's tasks, never a `FinalRx` -/
def spawnForAsync (ctx : Ctx) : Links → Receiver → Walk AsyncReceiver
  | .start, _ => return ⟨ctx.bufferSize ctx.perStageParallelism⟩
  | .stage _ prev opts slotBytes, rx => do
    let midRx ← finalizePrevRx ctx (← spawn ctx prev rx)
    let parallelism ← stageWorkers ctx opts
    spawnStageInto mixed ctx opts slotBytes midRx parallelism
  | .async prev opts _ outBytes, rx => do
    let aInRx ← spawnForAsync ctx prev rx
    spawnAsyncConsumersInto asyncMpmc ctx opts outBytes aInRx
  | .fence prev buffer mode slotBytes, rx => do
    let midRx ← finalizePrevRx ctx (← spawn ctx prev rx)
    spawnFenceInto mixed ctx buffer mode slotBytes midRx

end

def spawnSingle (ctx : Ctx) : Links → Receiver → Walk FinalRx
  | .start, _ => return .syncSingle ⟨ctx.bufferSize ctx.perStageParallelism⟩
  | .stage _ prev opts slotBytes, rx => do
    let midRx ← finalizePrevRx ctx (← spawn ctx prev rx)
    let parallelism ← stageWorkers ctx opts
    spawnStageTerminal ctx opts slotBytes midRx parallelism
  | .async prev opts _ outBytes, rx => do
    let aInRx ← spawnForAsync ctx prev rx
    spawnAsyncConsumersTerminal ctx opts outBytes aInRx
  | .fence prev buffer mode slotBytes, rx => do
    let midRx ← finalizePrevRx ctx (← spawn ctx prev rx)
    spawnFenceInto mpsc ctx buffer mode slotBytes midRx

def spawnAsyncFeeder (ctx : Ctx) : Links → AsyncReceiver → Walk FinalRx
  | .start, rx => return .async rx
  | .stage _ prev opts slotBytes, rx => do
    let midRx ← finalizePrevRx ctx (← spawnAsyncFeeder ctx prev rx)
    let parallelism ← stageWorkers ctx opts
    spawnStageInto mpmc ctx opts slotBytes midRx parallelism
  | .async prev opts inBytes outBytes, rx => do
    let prevRx ← spawnAsyncFeeder ctx prev rx
    let buffer ← stageBuffer ctx inBytes opts.buffer (ctx.stageIoConcurrency opts)
    let aInRx ← bridgeFinalRxToAsync ctx buffer prevRx
    return .async (← spawnAsyncConsumersInto asyncMpmc ctx opts outBytes aInRx)
  | .fence prev buffer mode slotBytes, rx => do
    let midRx ← finalizePrevRx ctx (← spawnAsyncFeeder ctx prev rx)
    spawnFenceInto mpmc ctx buffer mode slotBytes midRx

def spawnAsyncFeederSingle (ctx : Ctx) : Links → AsyncReceiver → Walk FinalRx
  | .start, _ => do
    acquireAsync ctx
    return .asyncSingle ⟨ctx.bufferSize ctx.perStageParallelism⟩
  | .stage _ prev opts slotBytes, rx => do
    let midRx ← finalizePrevRx ctx (← spawnAsyncFeeder ctx prev rx)
    let parallelism ← stageWorkers ctx opts
    spawnStageTerminal ctx opts slotBytes midRx parallelism
  | .async prev opts inBytes outBytes, rx => do
    let prevRx ← spawnAsyncFeeder ctx prev rx
    let buffer ← stageBuffer ctx inBytes opts.buffer (ctx.stageIoConcurrency opts)
    let aInRx ← bridgeFinalRxToAsync ctx buffer prevRx
    spawnAsyncConsumersTerminal ctx opts outBytes aInRx
  | .fence prev buffer mode slotBytes, rx => do
    let midRx ← finalizePrevRx ctx (← spawnAsyncFeeder ctx prev rx)
    spawnFenceInto mpsc ctx buffer mode slotBytes midRx

/-- `feed_items`: inline when the items fit, else one more job -/
def feedItems (ctx : Ctx) (buffer : ℕ) : Walk Unit := if ctx.n ≤ buffer then pure () else spawnStageJobs ctx 1

/-- the branch of `route_feeder`: the feeder channel is async when the first real stage is -/
def spawnFed (ctx : Ctx) (links : Links) (buffer : ℕ) : Walk FinalRx :=
  if links.chain.firstConsumerIsAsync = some true then spawnAsyncFeederSingle ctx links ⟨buffer⟩
  else spawnSingle ctx links ⟨buffer⟩

/-- `route_feeder`, with the assertion on the receiver that the collector gets -/
def routeFeeder (ctx : Ctx) (links : Links) : Walk FinalRx := do
  let buffer := ctx.feederRing
  noteInFlight (Tracked.of buffer + Tracked.of 1 + Tracked.of ctx.batchRecvCap)
  feedItems ctx buffer
  let finalRx ← spawnFed ctx links buffer
  if finalRx.isSingle then return finalRx else throw .terminal

/-- `exec_stream` up to the drain: the runtime of a chain with an async stage is warmed up first, and `none` is its error -/
def execStream (ctx : Ctx) (links : Links) : Walk (Option FinalRx) :=
  if links.chain.hasAsyncStage && !ctx.runtimeOk then return none
  else do
    let finalRx ← routeFeeder ctx links
    return some finalRx

/-! ## The parts of a walk -/

/-- the panic that is left: the runtime cannot be built, and the walk has a use for it -/
def Unbuilt (ctx : Ctx) (needs : Bool) (e : Panic) : Prop := e = .runtime ∧ ctx.runtimeOk = false ∧ needs = true

section Parts

variable {ctx : Ctx} {cells : Cells} {E : Panic → Prop}

theorem Unbuilt.mono {a b : Bool} (h : a = true → b = true) (e : Panic) (he : Unbuilt ctx a e) : Unbuilt ctx b e :=
  ⟨he.1, he.2.1, h he.2.2⟩

theorem noteInFlight_ends (items : Tracked) : Ends E (noteInFlight items) cells fun _ s => s = cells.noteInFlight items :=
  .modify rfl

theorem noteShards_ends (shards : ℕ) : Ends E (noteShards shards) cells fun _ s => s = cells.noteShards shards := .modify rfl

theorem spawnStageJobs_ends (jobs : ℕ) :
    Ends E (spawnStageJobs ctx jobs) cells fun _ s => s = cells.spawnStageJobs ctx.toCtx jobs := .modify rfl

theorem acquireAsync_ends : Ends (Unbuilt ctx true) (acquireAsync ctx) cells fun _ s => s = cells := by
  unfold acquireAsync
  split_ifs with h
  · exact .pure rfl
  · exact .throw ⟨rfl, by simpa using h, rfl⟩

theorem one_le_stageWorkers (opts : SyncStageOptions) (cells : Cells) : 1 ≤ (Usize.stageWorkers ctx.toCtx opts cells).1 := by
  unfold Usize.stageWorkers
  dsimp only
  split_ifs
  · exact le_max_right _ _
  · exact le_max_right _ _

theorem stageWorkers_ends (opts : SyncStageOptions) : Ends E (stageWorkers ctx opts) cells fun p s =>
    p = (Usize.stageWorkers ctx.toCtx opts cells).1 ∧ s = (Usize.stageWorkers ctx.toCtx opts cells).2 := .modifyGet ⟨rfl, rfl⟩

theorem stageBuffer_ends (bytes : ℕ) (buffer : Option ℕ+) (parallelism : ℕ) : Ends E (stageBuffer ctx bytes buffer parallelism)
    cells fun _ s => s = Usize.stageBuffer ctx.toCtx bytes buffer parallelism cells := by
  refine (noteInFlight_ends _).bind ?_
  rintro - _ rfl
  exact .pure rfl

/-- a receiver for several consumers is taken as it is, or bridged when it is async -/
theorem finalizePrevRx_ends {r : FinalRx} (hr : r.isMulti = true) : Ends (Unbuilt ctx r.isAsync) (finalizePrevRx ctx r) cells
    fun _ s => s = Usize.finalizePrevRx ctx.toCtx r.isAsync cells := by
  cases r with
  | sync rx => exact .pure rfl
  | async rx =>
    refine (noteInFlight_ends _).bind ?_
    rintro - _ rfl
    refine acquireAsync_ends.bind ?_
    rintro - _ rfl
    exact .pure rfl
  | syncSingle rx => cases hr
  | syncSharded rx => cases hr
  | asyncSingle rx => cases hr
  | asyncSharded rx => cases hr

theorem bridgeFinalRxToAsync_ends (buffer : ℕ) {r : FinalRx} (hr : r.isMulti = true) :
    Ends (Unbuilt ctx true) (bridgeFinalRxToAsync ctx buffer r) cells fun _ s => s = cells := by
  cases r with
  | sync rx => exact .pure rfl
  | async rx =>
    refine acquireAsync_ends.bind ?_
    rintro - _ rfl
    exact .pure rfl
  | syncSingle rx => cases hr
  | syncSharded rx => cases hr
  | asyncSingle rx => cases hr
  | asyncSharded rx => cases hr

/-! ## Output channels -/

/-- a factory that makes one sender for each of `workers`, changes the cells by `note`, and hands over what `P` says -/
def OutChannel.Makes (ch : OutChannel Out) (ctx : Ctx) (workers : ℕ) (note : Cells → Cells) (P : Out → Prop) : Prop :=
  ∀ (E : Panic → Prop) (buffer : ℕ) (cells : Cells), Ends E (ch.make ctx buffer workers) cells fun made s =>
    made.1.length = workers ∧ P (ch.wrap made.2) ∧ s = note cells

variable {workers : ℕ} {P : Out → Prop}

theorem shared_makes {Rx : Type} {channel : ℕ → Rx} {wrap : Rx → Out} (hw : 1 ≤ workers) (hP : ∀ rx, P (wrap rx)) :
    (OutChannel.shared channel wrap).Makes ctx workers id P := by
  intro E buffer cells
  refine .pure ⟨?_, hP _, rfl⟩
  simp only [cloneFanout, List.length_append, List.length_replicate, List.length_singleton]
  omega

theorem mpmc_makes (hw : 1 ≤ workers) : mpmc.Makes ctx workers id fun r => r.isMulti = true ∧ r.isAsync = false :=
  shared_makes hw fun _ => ⟨rfl, rfl⟩

theorem mpsc_makes (hw : 1 ≤ workers) : mpsc.Makes ctx workers id fun r => r.isSingle = true := shared_makes hw fun _ => rfl

theorem mixed_makes (hw : 1 ≤ workers) : mixed.Makes ctx workers id fun _ => True := shared_makes hw fun _ => trivial

theorem asyncMpmc_makes (hw : 1 ≤ workers) : asyncMpmc.Makes ctx workers id fun _ => True := shared_makes hw fun _ => trivial

theorem asyncMpsc_makes (hw : 1 ≤ workers) : asyncMpsc.Makes ctx workers id fun r => r.isSingle = true :=
  shared_makes hw fun _ => rfl

theorem shardedMpsc_makes (hw : 1 ≤ workers) :
    shardedMpsc.Makes ctx workers (fun cells => cells.noteShards workers) fun r => r.isSingle = true := by
  intro E buffer cells
  refine (noteShards_ends workers).bind ?_
  rintro - _ rfl
  rw [if_neg (by omega)]
  exact .pure ⟨List.length_range, rfl, rfl⟩

theorem asyncSharded_makes {tasks : ℕ} (hs : 0 < ctx.shardedAsyncTerminal tasks) : asyncSharded.Makes ctx tasks
    (fun cells => cells.noteShards (ctx.shardedAsyncTerminal tasks)) fun r => r.isSingle = true := by
  intro E buffer cells
  have hne : ctx.shardedAsyncTerminal tasks ≠ 0 := hs.ne'
  simp only [asyncSharded, if_neg hne]
  refine (noteShards_ends _).bind ?_
  rintro - _ rfl
  exact .pure ⟨by simp, rfl, rfl⟩

/-! ## Spawn cores -/

theorem spawnStageInto_ends {ch : OutChannel Out} {note : Cells → Cells} (h : ch.Makes ctx workers note P) (opts : SyncStageOptions)
    (bytes : ℕ) (midRx : Receiver) : Ends E (spawnStageInto ch ctx opts bytes midRx workers) cells fun out s => P out ∧
      s = (note (Usize.stageBuffer ctx.toCtx bytes opts.buffer workers cells)).spawnStageJobs ctx.toCtx workers := by
  refine (stageBuffer_ends bytes opts.buffer workers).bind ?_
  rintro buffer _ rfl
  refine (h E buffer _).bind ?_
  rintro ⟨txs, outRx⟩ _ ⟨hlen, hP, rfl⟩
  refine (spawnStageJobs_ends _).bind ?_
  rintro - _ rfl
  exact .pure ⟨hP, by rw [← hlen]⟩

theorem spawnStageTerminal_ends (hw : 1 ≤ workers) (opts : SyncStageOptions) (bytes : ℕ) (midRx : Receiver) :
    Ends E (spawnStageTerminal ctx opts bytes midRx workers) cells fun r s => r.isSingle = true ∧
      s = (if ctx.shardedTerminal workers then
          (Usize.stageBuffer ctx.toCtx bytes opts.buffer workers cells).noteShards workers
        else Usize.stageBuffer ctx.toCtx bytes opts.buffer workers cells).spawnStageJobs ctx.toCtx workers := by
  unfold spawnStageTerminal
  split_ifs
  · exact spawnStageInto_ends (shardedMpsc_makes hw) opts bytes midRx
  · exact spawnStageInto_ends (mpsc_makes hw) opts bytes midRx

theorem spawnFenceInto_ends {ch : OutChannel Out} (h : ch.Makes ctx 1 id P) (buffer : Option ℕ+) (mode : FenceMode) (bytes : ℕ)
    (midRx : Receiver) : Ends E (spawnFenceInto ch ctx buffer mode bytes midRx) cells fun out s => P out ∧
      s = ((Usize.stageBuffer ctx.toCtx bytes buffer ctx.perStageParallelism cells).noteInFlight (ctx.fenceHold mode)).spawnStageJobs
        ctx.toCtx 1 := by
  refine (stageBuffer_ends bytes buffer ctx.perStageParallelism).bind ?_
  rintro capacity _ rfl
  refine (h E capacity _).bind ?_
  rintro ⟨txs, fencedRx⟩ _ ⟨hlen, hP, rfl⟩
  have hpop : txs.getLast? ≠ none := by
    rw [Ne, List.getLast?_eq_none_iff, ← List.length_eq_zero_iff]
    exact hlen.trans_ne one_ne_zero
  dsimp only
  rw [if_neg hpop]
  refine (noteInFlight_ends _).bind ?_
  rintro - _ rfl
  refine (spawnStageJobs_ends 1).bind ?_
  rintro - _ rfl
  exact .pure ⟨hP, rfl⟩

theorem spawnAsyncConsumersInto_ends {ch : OutChannel Out} {note : Cells → Cells} (opts : AsyncStageOptions)
    (h : ch.Makes ctx (ctx.stageIoConcurrency opts) note P) (bytes : ℕ) (aInRx : AsyncReceiver) :
    Ends (Unbuilt ctx true) (spawnAsyncConsumersInto ch ctx opts bytes aInRx) cells fun out s => P out ∧
      s = note ((Usize.stageBuffer ctx.toCtx bytes opts.buffer (ctx.stageIoConcurrency opts) cells).noteInFlight
        (Tracked.of (ctx.stageIoConcurrency opts))) := by
  refine (stageBuffer_ends bytes opts.buffer _).bind ?_
  rintro buffer _ rfl
  refine (noteInFlight_ends _).bind ?_
  rintro - _ rfl
  refine (h _ buffer _).bind ?_
  rintro ⟨senders, outRx⟩ _ ⟨-, hP, rfl⟩
  refine acquireAsync_ends.bind ?_
  rintro - _ rfl
  exact .pure ⟨hP, rfl⟩

theorem one_le_stageIoConcurrency (opts : AsyncStageOptions) : 1 ≤ ctx.stageIoConcurrency opts :=
  le_min (le_max_right _ _) (le_max_right _ _)

/-- the tasks of a terminal stage, in either of its forms -/
theorem spawnAsyncConsumersTerminal_ends (opts : AsyncStageOptions) (bytes : ℕ) (aInRx : AsyncReceiver) {form : Form}
    (hform : Usize.terminal form = true) : Ends (Unbuilt ctx true) (spawnAsyncConsumersTerminal ctx opts bytes aInRx) cells fun r s =>
      r.isSingle = true ∧ s = Usize.spawnAsyncConsumers ctx.toCtx opts bytes form cells := by
  simp only [spawnAsyncConsumersTerminal, Usize.spawnAsyncConsumers, hform, Bool.true_and, decide_eq_true_eq]
  split_ifs with hs
  · exact spawnAsyncConsumersInto_ends opts (asyncSharded_makes hs) bytes aInRx
  · exact spawnAsyncConsumersInto_ends opts (asyncMpsc_makes (one_le_stageIoConcurrency opts)) bytes aInRx

end Parts

/-! ## The walks -/

/-- whether a walk has a use for the runtime: an async stage, or a feeder channel that is async -/
def needsRuntime (links : Links) (form : Form) : Bool := links.chain.hasAsyncStage || fedAsync form

/-- what a walk ends with whose receiver goes to another link: one for several consumers, sync or async as `handsAsync` says -/
def HandsOn (ctx : Ctx) (links : Links) (form : Form) (x : Walk FinalRx) : Prop :=
  ∀ cells, Ends (Unbuilt ctx (needsRuntime links form)) x cells fun r s =>
    (r.isMulti = true ∧ r.isAsync = links.handsAsync form) ∧ s = links.spawnWalk ctx.toCtx form cells

/-- what a walk ends with whose receiver goes to the collector -/
def HandsOut (ctx : Ctx) (links : Links) (form : Form) (x : Walk FinalRx) : Prop :=
  ∀ cells, Ends (Unbuilt ctx (needsRuntime links form)) x cells fun r s =>
    r.isSingle = true ∧ s = links.spawnWalk ctx.toCtx form cells

/-- what `spawn_for_async` ends with; its receiver is async by its type -/
def HandsAsync (ctx : Ctx) (links : Links) (x : Walk AsyncReceiver) : Prop :=
  ∀ cells, Ends (Unbuilt ctx (needsRuntime links .spawnForAsync)) x cells fun _ s =>
    s = links.spawnWalk ctx.toCtx .spawnForAsync cells

theorem needsRuntime_of_handsAsync {links : Links} {form : Form} (h : links.handsAsync form = true) :
    needsRuntime links form = true := by
  cases links with
  | start => exact h
  | stage kind prev opts bytes => cases h
  | async prev opts i o => rfl
  | fence prev buffer mode bytes => cases h

section Walks

variable {ctx : Ctx} {prev : Links} {form : Form} {x : Walk FinalRx} {cells : Cells} {P : Out → Prop}

/-- the input of a pool stage or a fence: what `prev` hands on is never one of the variants `finalize_prev_rx` excludes -/
theorem finalized_ends (hx : HandsOn ctx prev form x) {rest : Receiver → Walk Out} {R : Out → Cells → Prop}
    (hrest : ∀ midRx, Ends (Unbuilt ctx (needsRuntime prev form)) (rest midRx)
      (Usize.finalizePrevRx ctx.toCtx (prev.handsAsync form) (prev.spawnWalk ctx.toCtx form cells)) R) :
    Ends (Unbuilt ctx (needsRuntime prev form)) (do let midRx ← finalizePrevRx ctx (← x); rest midRx) cells R := by
  refine (hx cells).bind ?_
  rintro r _ ⟨⟨hmulti, hasync⟩, rfl⟩
  have hfinal := @finalizePrevRx_ends ctx (prev.spawnWalk ctx.toCtx form cells) r hmulti
  rw [hasync] at hfinal
  refine (hfinal.mono (Unbuilt.mono needsRuntime_of_handsAsync) fun _ _ h => h).bind ?_
  rintro midRx _ rfl
  exact hrest midRx

/-- a pool stage, from the walk over `prev` and the core of its form -/
theorem staged_ends (hx : HandsOn ctx prev form x) (opts : SyncStageOptions) {core : Receiver → ℕ → Walk Out}
    {after : ℕ → Cells → Cells} (hcore : ∀ midRx workers cells, 1 ≤ workers →
      Ends (Unbuilt ctx (needsRuntime prev form)) (core midRx workers) cells fun out s => P out ∧ s = after workers cells) :
    Ends (Unbuilt ctx (needsRuntime prev form))
      (do let midRx ← finalizePrevRx ctx (← x); let parallelism ← stageWorkers ctx opts; core midRx parallelism) cells fun out s =>
        let c := Usize.stageWorkers ctx.toCtx opts
          (Usize.finalizePrevRx ctx.toCtx (prev.handsAsync form) (prev.spawnWalk ctx.toCtx form cells))
        P out ∧ s = after c.1 c.2 := by
  refine finalized_ends hx fun midRx => (stageWorkers_ends opts).bind ?_
  rintro _ _ ⟨rfl, rfl⟩
  exact hcore midRx _ _ (one_le_stageWorkers opts _)

/-- the input of an async stage off the async feeder -/
theorem consumed_ends {y : Walk AsyncReceiver} (hy : HandsAsync ctx prev y) {core : AsyncReceiver → Walk Out} {after : Cells → Cells}
    (hcore : ∀ aInRx cells, Ends (Unbuilt ctx true) (core aInRx) cells fun out s => P out ∧ s = after cells) :
    Ends (Unbuilt ctx true) (do let aInRx ← y; core aInRx) cells fun out s =>
      P out ∧ s = after (prev.spawnWalk ctx.toCtx .spawnForAsync cells) := by
  refine ((hy cells).mono (Unbuilt.mono fun _ => rfl) fun _ _ h => h).bind ?_
  rintro aInRx _ rfl
  exact hcore aInRx _

/-- the input of an async stage on the async feeder: never one of the variants `bridge_final_rx_to_async` excludes -/
theorem bridged_ends (hx : HandsOn ctx prev .spawnAsyncFeeder x) (opts : AsyncStageOptions) (bytes : ℕ)
    {core : AsyncReceiver → Walk Out} {after : Cells → Cells}
    (hcore : ∀ aInRx cells, Ends (Unbuilt ctx true) (core aInRx) cells fun out s => P out ∧ s = after cells) :
    Ends (Unbuilt ctx true) (do
      let prevRx ← x
      let buffer ← stageBuffer ctx bytes opts.buffer (ctx.stageIoConcurrency opts)
      let aInRx ← bridgeFinalRxToAsync ctx buffer prevRx
      core aInRx) cells fun out s => P out ∧
        s = after (Usize.stageBuffer ctx.toCtx bytes opts.buffer (ctx.stageIoConcurrency opts)
          (prev.spawnWalk ctx.toCtx .spawnAsyncFeeder cells)) := by
  refine ((hx cells).mono (Unbuilt.mono fun _ => rfl) fun _ _ h => h).bind ?_
  rintro r _ ⟨⟨hmulti, -⟩, rfl⟩
  refine (stageBuffer_ends bytes opts.buffer _).bind ?_
  rintro buffer _ rfl
  refine (bridgeFinalRxToAsync_ends buffer hmulti).bind ?_
  rintro aInRx _ rfl
  exact hcore aInRx _

end Walks

/-- `spawn` of an async stage is its own `spawn_for_async` -/
theorem spawn_async (ctx : Ctx) (prev : Links) (opts : AsyncStageOptions) (i o : ℕ) (rx : Receiver) :
    spawn ctx (.async prev opts i o) rx = do return .async (← spawnForAsync ctx (.async prev opts i o) rx) := by
  simp only [spawn, spawnForAsync, bind_assoc]

theorem spawn_ends (ctx : Ctx) (links : Links) : (∀ rx, HandsOn ctx links .spawn (spawn ctx links rx)) ∧
    ∀ rx, HandsAsync ctx links (spawnForAsync ctx links rx) := by
  induction links with
  | start => exact ⟨fun rx cells => .pure ⟨⟨rfl, rfl⟩, rfl⟩, fun rx cells => .pure rfl⟩
  | stage kind prev opts bytes ih =>
    constructor
    · intro rx cells
      refine (staged_ends (ih.1 rx) opts fun midRx workers cells hw =>
        spawnStageInto_ends (mpmc_makes hw) opts bytes midRx).mono (fun _ h => h) ?_
      rintro r _ ⟨hr, rfl⟩
      exact ⟨hr, rfl⟩
    · intro rx cells
      refine (staged_ends (ih.1 rx) opts fun midRx workers cells hw =>
        spawnStageInto_ends (mixed_makes hw) opts bytes midRx).mono (fun _ h => h) ?_
      rintro r _ ⟨-, rfl⟩
      rfl
  | async prev opts i o ih =>
    have hasync : ∀ rx, HandsAsync ctx (.async prev opts i o) (spawnForAsync ctx (.async prev opts i o) rx) := by
      intro rx cells
      refine (consumed_ends (ih.2 rx) fun aInRx cells => spawnAsyncConsumersInto_ends opts
        (asyncMpmc_makes (one_le_stageIoConcurrency opts)) o aInRx).mono (fun _ h => h) ?_
      rintro r _ ⟨-, rfl⟩
      rfl
    refine ⟨?_, hasync⟩
    intro rx cells
    rw [spawn_async]
    refine (hasync rx cells).bind ?_
    rintro r _ rfl
    exact .pure ⟨⟨rfl, rfl⟩, rfl⟩
  | fence prev buffer mode bytes ih =>
    constructor
    · intro rx cells
      exact finalized_ends (ih.1 rx) fun midRx => spawnFenceInto_ends (mpmc_makes le_rfl) buffer mode bytes midRx
    · intro rx cells
      refine (finalized_ends (ih.1 rx) fun midRx =>
        spawnFenceInto_ends (mixed_makes le_rfl) buffer mode bytes midRx).mono (fun _ h => h) ?_
      rintro r _ ⟨-, rfl⟩
      rfl

theorem spawnAsyncFeeder_ends (ctx : Ctx) (links : Links) :
    ∀ rx, HandsOn ctx links .spawnAsyncFeeder (spawnAsyncFeeder ctx links rx) := by
  induction links with
  | start => exact fun rx cells => .pure ⟨⟨rfl, rfl⟩, rfl⟩
  | stage kind prev opts bytes ih =>
    intro rx cells
    refine (staged_ends (ih rx) opts fun midRx workers cells hw =>
      spawnStageInto_ends (mpmc_makes hw) opts bytes midRx).mono (fun _ h => h) ?_
    rintro r _ ⟨hr, rfl⟩
    exact ⟨hr, rfl⟩
  | async prev opts i o ih =>
    intro rx cells
    have hcore : ∀ aInRx cells, Ends (Unbuilt ctx true)
        (do return FinalRx.async (← spawnAsyncConsumersInto asyncMpmc ctx opts o aInRx)) cells fun r s =>
          (r.isMulti = true ∧ r.isAsync = true) ∧ s = Usize.spawnAsyncConsumers ctx.toCtx opts o .spawnAsyncFeeder cells := by
      intro aInRx cells
      refine (spawnAsyncConsumersInto_ends opts (asyncMpmc_makes (one_le_stageIoConcurrency opts)) o aInRx).bind ?_
      rintro rx _ ⟨-, rfl⟩
      exact .pure ⟨⟨rfl, rfl⟩, rfl⟩
    exact bridged_ends (ih rx) opts i hcore
  | fence prev buffer mode bytes ih =>
    intro rx cells
    exact finalized_ends (ih rx) fun midRx => spawnFenceInto_ends (mpmc_makes le_rfl) buffer mode bytes midRx

theorem spawnSingle_ends (ctx : Ctx) (links : Links) (rx : Receiver) : HandsOut ctx links .spawnSingle (spawnSingle ctx links rx) := by
  intro cells
  cases links with
  | start => exact .pure ⟨rfl, rfl⟩
  | stage kind prev opts bytes =>
    refine (staged_ends ((spawn_ends ctx prev).1 rx) opts fun midRx workers cells hw =>
      spawnStageTerminal_ends hw opts bytes midRx).mono (fun _ h => h) ?_
    rintro r _ ⟨hr, rfl⟩
    exact ⟨hr, rfl⟩
  | async prev opts i o =>
    exact consumed_ends ((spawn_ends ctx prev).2 rx) fun aInRx cells => spawnAsyncConsumersTerminal_ends opts o aInRx rfl
  | fence prev buffer mode bytes =>
    exact finalized_ends ((spawn_ends ctx prev).1 rx) fun midRx =>
      spawnFenceInto_ends (mpsc_makes le_rfl) buffer mode bytes midRx

theorem spawnAsyncFeederSingle_ends (ctx : Ctx) (links : Links) (rx : AsyncReceiver) :
    HandsOut ctx links .spawnAsyncFeederSingle (spawnAsyncFeederSingle ctx links rx) := by
  intro cells
  cases links with
  | start =>
    refine acquireAsync_ends.bind ?_
    rintro - _ rfl
    exact .pure ⟨rfl, rfl⟩
  | stage kind prev opts bytes =>
    refine (staged_ends (spawnAsyncFeeder_ends ctx prev rx) opts fun midRx workers cells hw =>
      spawnStageTerminal_ends hw opts bytes midRx).mono (fun _ h => h) ?_
    rintro r _ ⟨hr, rfl⟩
    exact ⟨hr, rfl⟩
  | async prev opts i o =>
    exact bridged_ends (spawnAsyncFeeder_ends ctx prev rx) opts i fun aInRx cells =>
      spawnAsyncConsumersTerminal_ends opts o aInRx rfl
  | fence prev buffer mode bytes =>
    exact finalized_ends (spawnAsyncFeeder_ends ctx prev rx) fun midRx =>
      spawnFenceInto_ends (mpsc_makes le_rfl) buffer mode bytes midRx

/-! ## Results -/

/-- a chain whose first consumer is async has an async stage -/
theorem hasAsyncStage_of_firstConsumer {chain : Admit.Chain} (h : chain.firstConsumerIsAsync = some true) :
    chain.hasAsyncStage = true := by
  induction chain with
  | start => cases h
  | stage kind prev opts ih =>
    rw [Admit.Chain.firstConsumerIsAsync] at h
    cases hp : prev.firstConsumerIsAsync with
    | none =>
      rw [hp] at h
      cases h
    | some b =>
      rw [hp] at h
      exact ih (hp.trans h)
  | async prev ih => rfl
  | fence prev ih => exact ih h

theorem feedItems_ends {E : Panic → Prop} (ctx : Ctx) (buffer : ℕ) (cells : Cells) : Ends E (feedItems ctx buffer) cells fun _ s =>
    s = if ctx.n ≤ buffer then cells else cells.spawnStageJobs ctx.toCtx 1 := by
  unfold feedItems
  split_ifs
  · exact .pure rfl
  · exact spawnStageJobs_ends 1

theorem spawnFed_ends (ctx : Ctx) (links : Links) (buffer : ℕ) (cells : Cells) :
    Ends (Unbuilt ctx links.chain.hasAsyncStage) (spawnFed ctx links buffer) cells fun r s =>
      r.isSingle = true ∧ s = links.spawnWalk ctx.toCtx links.form cells := by
  unfold spawnFed Links.form
  split_ifs with hfirst
  · exact (spawnAsyncFeederSingle_ends ctx links _ cells).mono (Unbuilt.mono fun _ => hasAsyncStage_of_firstConsumer hfirst)
      fun _ _ h => h
  · refine (spawnSingle_ends ctx links _ cells).mono (Unbuilt.mono ?_) fun _ _ h => h
    simp [needsRuntime, fedAsync]

theorem routeFeeder_ends (ctx : Ctx) (links : Links) (cells : Cells) :
    Ends (Unbuilt ctx links.chain.hasAsyncStage) (routeFeeder ctx links) cells fun r s =>
      r.isSingle = true ∧ s = Usize.routeFeeder ctx.toCtx links cells := by
  refine (noteInFlight_ends _).bind ?_
  rintro - _ rfl
  refine (feedItems_ends ctx _ _).bind ?_
  rintro - _ rfl
  refine (spawnFed_ends ctx links _ _).bind ?_
  rintro r _ ⟨hr, rfl⟩
  rw [if_pos hr]
  exact .pure ⟨hr, rfl⟩

/-- a run never panics while it is spawned: the runtime is there when the walk has a use for it -/
theorem execStream_ends (ctx : Ctx) (links : Links) (cells : Cells) :
    Ends (fun _ => False) (execStream ctx links) cells fun out s =>
      (out = none ∧ ctx.runtimeOk = false) ∨ ∃ r, out = some r ∧ r.isSingle = true ∧ s = Usize.routeFeeder ctx.toCtx links cells := by
  unfold execStream
  split_ifs with hwarm
  · exact .pure (.inl ⟨rfl, by simpa using (Bool.and_eq_true_iff.1 hwarm).2⟩)
  · refine ((routeFeeder_ends ctx links cells).mono ?_ fun _ _ h => h).bind ?_
    · rintro e ⟨-, hrt, hasync⟩
      simp [hrt, hasync] at hwarm
    · rintro r _ ⟨hr, rfl⟩
      exact .pure (.inr ⟨r, rfl, hr, rfl⟩)

/-- **Terminal channel shape.** Over every chain, with any options and knobs and from any cells: `spawn` and `spawn_async_feeder`
hand on a multi-consumer variant, sync or async by the last link; `spawn_single` and `spawn_async_feeder_single` hand out a single
or a sharded one, and so does `route_feeder`. No `unreachable!` arm and no assertion is hit on the way: the one panic is a runtime
that cannot be built, and none is left in a run, which builds it first. -/
theorem terminal_shape (ctx : Ctx) (links : Links) (rx : Receiver) (asyncRx : AsyncReceiver) :
    HandsOn ctx links .spawn (spawn ctx links rx) ∧
      HandsOn ctx links .spawnAsyncFeeder (spawnAsyncFeeder ctx links asyncRx) ∧
      HandsOut ctx links .spawnSingle (spawnSingle ctx links rx) ∧
      HandsOut ctx links .spawnAsyncFeederSingle (spawnAsyncFeederSingle ctx links asyncRx) ∧
      HandsAsync ctx links (spawnForAsync ctx links rx) ∧
      (∀ cells, Ends (Unbuilt ctx links.chain.hasAsyncStage) (routeFeeder ctx links) cells fun r s =>
        r.isSingle = true ∧ s = Usize.routeFeeder ctx.toCtx links cells) ∧
      ∀ cells, Ends (fun _ => False) (execStream ctx links) cells fun out s => (out = none ∧ ctx.runtimeOk = false) ∨
        ∃ r, out = some r ∧ r.isSingle = true ∧ s = Usize.routeFeeder ctx.toCtx links cells :=
  ⟨(spawn_ends ctx links).1 rx, spawnAsyncFeeder_ends ctx links asyncRx, spawnSingle_ends ctx links rx,
    spawnAsyncFeederSingle_ends ctx links asyncRx, (spawn_ends ctx links).2 rx, routeFeeder_ends ctx links,
    execStream_ends ctx links⟩

/-- an async stage behind a fence, then a pool stage of two workers: the async feeder, and a sharded terminal -/
example : (routeFeeder ⟨⟨⟨⟨8, 4, false⟩, 100, 2, true, true, none, 16⟩, 4, 2, 0, true, false⟩, true⟩
    (.stage .sync (.async (.fence .start none .barrier 16) ⟨none, none⟩ 16 16) ⟨none, none⟩ 16)
    ⟨Tracked.of 0, 0, Tracked.of 0, Tracked.of 0⟩).map Prod.fst = .ok (.syncSharded ⟨2, 4⟩) := by
  decide

end YouPipe.Terminal
