/-
Typed stage chains of a streaming pipeline and the topology they are spawned as (`StageSpawn` and the `spawn_*` cores in
`builder/typed/stream.rs`).

A chain carries its `StreamMode`: per-item messages, unordered or ordered, or one group message per input. `ordered()` exists
only on chains without `expand`, and an expansion after it makes the chain grouped; both are facts of the type here too. The
spawn walk enters a chain through one of five forms (`Admit.Form`) and adds bridges where a sync stage follows an async one or
the feeder's channel is of the wrong kind. The last stage may send to several rings.

Worker counts, capacities and the in-flight estimate are whatever the run resolves them to (`Ctx`), one value per stage; the
batch knobs are those of the environment. `outs` is what the chain computes from one input, sequentially.

`spawn_outs`: in every form the spawned topology turns an input into the messages of `outs`, one by one or as a group.
-/
import Mathlib.Tactic
import YouPipe.Stream.Admission
import YouPipe.Stream.Run

namespace YouPipe.Stream

open YouPipe.Admit (SyncStageOptions Form)

/-! ## Chains -/

/-- `StreamMode`; `expanded` says that an `expand` precedes, which takes `ordered()` away -/
inductive Mode where
  | items (ordered expanded : Bool)
  | grouped
deriving DecidableEq, Repr

/-- what a message of a chain with items `X` carries -/
def payload : Mode → Type → Type
  | .items _ _, X => X
  | .grouped, X => List X

inductive FenceMode where
  | barrier
  | chunked (k : ℕ+)

def FenceMode.chunkSize : FenceMode → Option ℕ
  | .barrier => none
  | .chunked k => some k

/-- a chain built on `StreamStart`; push-style expansions append, so they are functions to lists -/
inductive Chain (I : Type) : Mode → Type → Type 1 where
  | start : Chain I (.items false false) I
  | ordered {X : Type} (prev : Chain I (.items false false) X) : Chain I (.items true false) X
  | stage {o e : Bool} {A B : Type} (prev : Chain I (.items o e) A) (opts : SyncStageOptions) (f : A → B) :
      Chain I (.items o e) B
  | expand {e : Bool} {A B : Type} (prev : Chain I (.items false e) A) (opts : SyncStageOptions) (f : A → List B) :
      Chain I (.items false true) B
  | orderedExpand {A B : Type} (prev : Chain I (.items true false) A) (opts : SyncStageOptions) (f : A → List B) :
      Chain I .grouped B
  | groupedStage {A B : Type} (prev : Chain I .grouped A) (opts : SyncStageOptions) (f : A → B) : Chain I .grouped B
  | groupedExpand {A B : Type} (prev : Chain I .grouped A) (opts : SyncStageOptions) (f : A → List B) : Chain I .grouped B
  | async {o e : Bool} {A B : Type} (prev : Chain I (.items o e) A) (f : A → B) : Chain I (.items o e) B
  | groupedAsync {A B : Type} (prev : Chain I .grouped A) (f : A → B) : Chain I .grouped B
  | fence {m : Mode} {X : Type} (prev : Chain I m X) (mode : FenceMode) : Chain I m X

variable {I A B O X : Type}

namespace Chain

/-- the outputs of one input, sequentially -/
def outs : {m : Mode} → {X : Type} → Chain I m X → I → List X
  | _, _, .start, x => [x]
  | _, _, .ordered prev, x => prev.outs x
  | _, _, .stage prev _ f, x => (prev.outs x).map f
  | _, _, .expand prev _ f, x => (prev.outs x).flatMap f
  | _, _, .orderedExpand prev _ f, x => (prev.outs x).flatMap f
  | _, _, .groupedStage prev _ f, x => (prev.outs x).map f
  | _, _, .groupedExpand prev _ f, x => (prev.outs x).flatMap f
  | _, _, .async prev f, x => (prev.outs x).map f
  | _, _, .groupedAsync prev f, x => (prev.outs x).map f
  | _, _, .fence prev _, x => prev.outs x

/-- the chain as admission and routing see it -/
def shape : {m : Mode} → {X : Type} → Chain I m X → Admit.Chain
  | _, _, .start => .start
  | _, _, .ordered prev => prev.shape
  | _, _, .stage prev opts _ => .stage .sync prev.shape opts
  | _, _, .expand prev opts _ => .stage .expand prev.shape opts
  | _, _, .orderedExpand prev opts _ => .stage .orderedExpand prev.shape opts
  | _, _, .groupedStage prev opts _ => .stage .grouped prev.shape opts
  | _, _, .groupedExpand prev opts _ => .stage .groupedExpand prev.shape opts
  | _, _, .async prev _ => .async prev.shape
  | _, _, .groupedAsync prev _ => .async prev.shape
  | _, _, .fence prev _ => .fence prev.shape

/-- the number of nodes, which numbers the stages from the feeder on -/
def depth : {m : Mode} → {X : Type} → Chain I m X → ℕ
  | _, _, .start => 0
  | _, _, .ordered prev => prev.depth
  | _, _, .stage prev _ _ => prev.depth + 1
  | _, _, .expand prev _ _ => prev.depth + 1
  | _, _, .orderedExpand prev _ _ => prev.depth + 1
  | _, _, .groupedStage prev _ _ => prev.depth + 1
  | _, _, .groupedExpand prev _ _ => prev.depth + 1
  | _, _, .async prev _ => prev.depth + 1
  | _, _, .groupedAsync prev _ => prev.depth + 1
  | _, _, .fence prev _ => prev.depth + 1

end Chain

/-! ## Spawning -/

/-- what a run resolves and reads: the feeder ring, per stage its workers or tasks, its output channel and the bridge before it,
the batch and sharding knobs, the in-flight estimate -/
structure Ctx where
  feederCap : ℕ+
  workers : ℕ → ℕ+
  buffer : ℕ → ℕ+
  bridgeBuffer : ℕ → ℕ+
  batchRecvCap : ℕ
  streamTxBatch : Bool
  sharded : Bool
  shardedAsync : Bool
  asyncWorkers : ℕ
  inFlight : ℕ

/-- `FinalRx`: the topology with the kind of its last channel -/
structure FinalRx (I P : Type) where
  net : Net I P
  isAsync : Bool
  isSharded : Bool

/-- a thread or task that hands messages on: `bridge_async_to_sync`, `bridge_final_rx_to_async` and the loops of `StreamStart` -/
def bridge (buffer : ℕ+) (net : Net I A) : Net I A := .link net ⟨1, 1, buffer, 0, some 0, false⟩ fun x => [x]

/-- `finalize_prev_rx` -/
def FinalRx.finalize (ctx : Ctx) (d : ℕ) (rx : FinalRx I A) : Net I A :=
  if rx.isAsync then bridge (ctx.bridgeBuffer d) rx.net else rx.net

/-- the last stage of its walk -/
def isSingle : Form → Bool
  | .spawnSingle | .spawnAsyncFeederSingle => true
  | _ => false

/-- the per-worker share of a claim -/
def claimCap (batchCap workers : ℕ) : ℕ := if batchCap = 0 then 0 else max (batchCap / workers) 1

/-- the capacity of one of `n` shards -/
def shardCap (buffer n : ℕ+) : ℕ+ := ⟨max (buffer / n) Sharded.minShardBuffer, lt_max_of_lt_right (by decide)⟩

/-- `StreamStart` hands the feeder channel on, or bridges it where another kind of channel is asked for -/
def startStage (ctx : Ctx) (form : Form) : FinalRx I I :=
  let feed := Net.feed ⟨ctx.feederCap, ctx.batchRecvCap⟩
  match form with
  | .spawn => ⟨feed, false, false⟩
  | .spawnAsyncFeeder => ⟨feed, true, false⟩
  | .spawnSingle => ⟨bridge (ctx.bridgeBuffer 0) feed, false, false⟩
  | .spawnForAsync => ⟨bridge (ctx.bridgeBuffer 0) feed, true, false⟩
  | .spawnAsyncFeederSingle => ⟨bridge (ctx.bridgeBuffer 0) feed, true, false⟩

/-- `spawn_stage_into` and `spawn_stage_terminal` over `spawn_stage_fanout`, or over `spawn_expand_stage_fanout` (`fanOut`), which
also sends when as many outputs as a batch have been collected -/
def poolStage (ctx : Ctx) (txBatch fanOut : Bool) (d : ℕ) (form : Form) (rx : FinalRx I A) (g : A → List B) : FinalRx I B :=
  let workers := ctx.workers d
  let claimCap := claimCap ctx.batchRecvCap workers
  let sharded := isSingle form && ctx.sharded && decide (1 < workers)
  let flushCap :=
    if txBatch && decide (0 < claimCap) then
      if fanOut then some (max (max ctx.batchRecvCap claimCap) 1) else none
    else some 0
  let shards := if sharded then workers else 1
  let cap := if sharded then shardCap (ctx.buffer d) workers else ctx.buffer d
  ⟨.link (rx.finalize ctx d) ⟨workers, shards, cap, claimCap, flushCap, false⟩ g, form == .spawnForAsync, sharded⟩

/-- `spawn_fence_into`: one forwarder that holds messages back -/
def fenceStage (ctx : Ctx) (mode : FenceMode) (d : ℕ) (form : Form) (rx : FinalRx I A) : FinalRx I A :=
  ⟨.link (rx.finalize ctx d) ⟨1, 1, ctx.buffer d, ctx.batchRecvCap, mode.chunkSize, true⟩ fun x => [x],
    form == .spawnForAsync, false⟩

/-- the tasks of an async stage; the input of an async-feeder walk is bridged whatever its kind -/
def asyncStage (ctx : Ctx) (d : ℕ) (form : Form) (rx : FinalRx I A) (f : A → B) : FinalRx I B :=
  let workers := ctx.workers d
  let sharded := isSingle form && ctx.shardedAsync && decide (1 < workers)
  let shards := if sharded then min workers ⟨max ctx.asyncWorkers 1, lt_max_of_lt_right Nat.one_pos⟩ else 1
  let cap := if sharded then shardCap (ctx.buffer d) shards else ctx.buffer d
  let input := match form with
    | .spawnAsyncFeeder | .spawnAsyncFeederSingle => bridge (ctx.bridgeBuffer d) rx.net
    | _ => rx.net
  ⟨.link input ⟨workers, shards, cap, 0, some 0, false⟩ fun x => [f x], true, sharded⟩

namespace Chain

/-- the spawn walk -/
def spawn (ctx : Ctx) (txBatch : Bool) : {m : Mode} → {X : Type} → Chain I m X → Form → FinalRx I (payload m X)
  | _, _, .start, form => startStage ctx form
  | _, _, .ordered prev, form => prev.spawn ctx txBatch form
  | _, _, .stage prev _ f, form =>
    poolStage ctx txBatch false prev.depth form (prev.spawn ctx txBatch form.intoSync) fun x => [f x]
  | _, _, .expand prev _ f, form =>
    poolStage ctx txBatch true prev.depth form (prev.spawn ctx txBatch form.intoSync) f
  | _, _, .orderedExpand prev _ f, form =>
    poolStage ctx txBatch false prev.depth form (prev.spawn ctx txBatch form.intoSync) fun x => [f x]
  | _, _, .groupedStage prev _ f, form =>
    poolStage ctx txBatch false prev.depth form (prev.spawn ctx txBatch form.intoSync) fun group => [group.map f]
  | _, _, .groupedExpand prev _ f, form =>
    poolStage ctx txBatch false prev.depth form (prev.spawn ctx txBatch form.intoSync) fun group => [group.flatMap f]
  | _, _, .async prev f, form => asyncStage ctx prev.depth form (prev.spawn ctx txBatch form.intoAsync) f
  | _, _, .groupedAsync prev f, form =>
    asyncStage ctx prev.depth form (prev.spawn ctx txBatch form.intoAsync) fun group => group.map f
  | _, _, .fence prev mode, form => fenceStage ctx mode prev.depth form (prev.spawn ctx txBatch form.intoSync)

/-- `route_feeder`: the form by the first real stage; batched sends are off in chains with an async stage -/
def route {m : Mode} (c : Chain I m X) (ctx : Ctx) : FinalRx I (payload m X) :=
  c.spawn ctx (ctx.streamTxBatch && !c.shape.hasAsyncStage)
    (if c.shape.firstConsumerIsAsync = some true then .spawnAsyncFeederSingle else .spawnSingle)

end Chain

/-! ## What a topology computes -/

/-- the messages one input becomes, from its outputs -/
def messages : (m : Mode) → List X → List (payload m X)
  | .items _ _, l => l
  | .grouped, l => [l]

theorem bridge_outs (buffer : ℕ+) (net : Net I A) : (bridge buffer net).outs = net.outs := by
  funext x
  simp [bridge, Net.outs]

theorem finalize_outs (ctx : Ctx) (d : ℕ) (rx : FinalRx I A) : (rx.finalize ctx d).outs = rx.net.outs := by
  unfold FinalRx.finalize
  split_ifs
  · exact bridge_outs _ _
  · rfl

theorem startStage_outs (ctx : Ctx) (form : Form) (x : I) : (startStage ctx form).net.outs x = [x] := by
  cases form with
  | spawn => rfl
  | spawnAsyncFeeder => rfl
  | spawnSingle => exact congrFun (bridge_outs _ (Net.feed _)) x
  | spawnForAsync => exact congrFun (bridge_outs _ (Net.feed _)) x
  | spawnAsyncFeederSingle => exact congrFun (bridge_outs _ (Net.feed _)) x

theorem poolStage_outs (ctx : Ctx) (txBatch fanOut : Bool) (d : ℕ) (form : Form) (rx : FinalRx I A) (g : A → List B) (x : I) :
    (poolStage ctx txBatch fanOut d form rx g).net.outs x = (rx.net.outs x).flatMap g := by
  show ((rx.finalize ctx d).outs x).flatMap g = _
  rw [finalize_outs]

theorem asyncStage_outs (ctx : Ctx) (d : ℕ) (form : Form) (rx : FinalRx I A) (f : A → B) (x : I) :
    (asyncStage ctx d form rx f).net.outs x = (rx.net.outs x).map f := by
  have hmap : ∀ l : List A, (l.flatMap fun x => [f x]) = l.map f := fun l => by
    rw [← List.map_eq_flatMap]
  cases form <;> simp only [asyncStage, Net.outs, bridge_outs, hmap]

/-- without an `expand` every input has one output -/
theorem outs_single {m : Mode} (c : Chain I m X) {o : Bool} (hm : m = .items o false) (x : I) : ∃ y, c.outs x = [y] := by
  induction c generalizing o with
  | start => exact ⟨x, rfl⟩
  | ordered prev ih => exact ih rfl
  | stage prev opts f ih =>
    obtain ⟨y, hy⟩ := ih hm
    exact ⟨f y, by rw [Chain.outs, hy]; rfl⟩
  | async prev f ih =>
    obtain ⟨y, hy⟩ := ih hm
    exact ⟨f y, by rw [Chain.outs, hy]; rfl⟩
  | fence prev mode ih => exact ih hm
  | expand prev opts f ih => cases hm
  | orderedExpand prev opts f ih => cases hm
  | groupedStage prev opts f ih => cases hm
  | groupedExpand prev opts f ih => cases hm
  | groupedAsync prev f ih => cases hm

/-- **the topology computes the chain**, in whatever form it was entered -/
theorem spawn_outs (ctx : Ctx) (txBatch : Bool) {m : Mode} (c : Chain I m X) (form : Form) (x : I) :
    (c.spawn ctx txBatch form).net.outs x = messages m (c.outs x) := by
  have hmap : ∀ {A B : Type} (f : A → B) (l : List A), (l.flatMap fun x => [f x]) = l.map f := fun f l => by
    rw [← List.map_eq_flatMap]
  induction c generalizing form with
  | start => exact startStage_outs ctx form x
  | ordered prev ih => exact ih form
  | stage prev opts f ih =>
    refine (poolStage_outs ..).trans ?_
    rw [ih]
    exact hmap f (prev.outs x)
  | expand prev opts f ih =>
    refine (poolStage_outs ..).trans ?_
    rw [ih]
    rfl
  | orderedExpand prev opts f ih =>
    obtain ⟨y, hy⟩ := outs_single prev rfl x
    refine (poolStage_outs ..).trans ?_
    rw [ih, Chain.outs, hy]
    show [f y] = [[y].flatMap f]
    simp
  | groupedStage prev opts f ih =>
    refine (poolStage_outs ..).trans ?_
    rw [ih]
    rfl
  | groupedExpand prev opts f ih =>
    refine (poolStage_outs ..).trans ?_
    rw [ih]
    rfl
  | async prev f ih =>
    refine (asyncStage_outs ..).trans ?_
    rw [ih]
    rfl
  | groupedAsync prev f ih =>
    refine (asyncStage_outs ..).trans ?_
    rw [ih]
    rfl
  | fence prev mode ih =>
    show (((prev.spawn ctx txBatch form.intoSync).finalize ctx prev.depth).outs x).flatMap (fun y => [y]) = _
    rw [finalize_outs, ih]
    simp [Chain.outs]

end YouPipe.Stream
