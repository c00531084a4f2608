/-
How a fused terminal is split (`builder/typed/fused.rs`): the serial gate, the split budget, and the top-level chunks of the
hybrid dispatcher. Off the pool, a small batch is a driver chunk, injected chunks and at most one reserve chunk kept for the
driver; a large batch is all injected; a worker of the pool that starts a nested batch takes one tree over `[0, n)` unless the
knob says otherwise.

Sizes are words and wrap (`num_threads * oversplit`, `num_threads + chunk_slack`, `next_power_of_two`). The environment
knobs are parameters. `layout_chunks` says that whatever the plan, the chunks of a dispatch are the consecutive ranges between
`bound 0 = 0` and `bound numChunks = n`.
-/
import Mathlib.Tactic
import YouPipe.Core.ForkJoin
import YouPipe.Core.Word

namespace YouPipe.Fused

open YouPipe.ForkJoin YouPipe.Word

/-! ## The split budget -/

/-- `Custom` carries a `NonZeroUsize` -/
inductive Workload where
  | balanced
  | unbalanced
  | custom (factor : ℕ)
deriving DecidableEq, Repr

inductive OnpoolHybrid where
  | off
  | injector
  | localDeque
deriving DecidableEq, Repr

/-- `YOUPIPE_OVERSPLIT`, `YOUPIPE_CHUNK_SLACK` and `YOUPIPE_ONPOOL_HYBRID`, as parsed -/
structure Knobs where
  oversplit : Option ℕ
  chunkSlack : Option ℕ
  onpool : OnpoolHybrid
deriving DecidableEq, Repr

/-- `usize::trailing_zeros`; 64 for 0 -/
def trailingZeros (n : ℕ) : ℕ := ((List.range 64).find? fun i => n.testBit i).getD 64

def prefersSerial (n numThreads : ℕ) : Bool := n ≤ 1 || numThreads ≤ 1

def splitDepth (n numThreads oversplit : ℕ) : ℕ :=
  let desiredTasks := max (numThreads * oversplit % word) 1
  let byThreads := trailingZeros (nextPowerOfTwo desiredTasks)
  let byLen := trailingZeros (nextPowerOfTwo (max n 1))
  max (min byThreads byLen) 1

def LOW_OVERSPLIT_ITEMS_PER_THREAD : ℕ := 1024
def BALANCED_OVERSPLIT : ℕ := 4
def UNBALANCED_CHUNK_SLACK : ℕ := 8
def UNBALANCED_CHUNK_SLACK_WIDE : ℕ := 16
def UNBALANCED_SLACK_WIDE_MIN_PER_CHUNK : ℕ := 48
def ASSIST_RESERVE_CHUNKS : ℕ := 1

def unbalancedOversplit (knobs : Knobs) : ℕ := knobs.oversplit.getD 64

def workloadOversplit (knobs : Knobs) (n numThreads : ℕ) : Workload → ℕ
  | .balanced => if n / max numThreads 1 ≤ LOW_OVERSPLIT_ITEMS_PER_THREAD then 1 else BALANCED_OVERSPLIT
  | .unbalanced => unbalancedOversplit knobs
  | .custom factor => factor

def unbalancedChunkSlack (knobs : Knobs) (n numThreads : ℕ) : ℕ :=
  match knobs.chunkSlack with
  | some v => v
  | none =>
    let wide := min (numThreads + UNBALANCED_CHUNK_SLACK_WIDE) maxVal
    if UNBALANCED_SLACK_WIDE_MIN_PER_CHUNK ≤ n / max wide 1 then UNBALANCED_CHUNK_SLACK_WIDE else UNBALANCED_CHUNK_SLACK

structure SplitPlan where
  depth : ℕ
  chunkSlack : ℕ
deriving DecidableEq, Repr

def SplitPlan.new (knobs : Knobs) (n numThreads : ℕ) (workload : Workload) : SplitPlan where
  depth := splitDepth n numThreads (workloadOversplit knobs n numThreads workload)
  chunkSlack := match workload with
    | .unbalanced => unbalancedChunkSlack knobs n numThreads
    | _ => 0

inductive TerminalPlan where
  | serial
  | parallel (plan : SplitPlan)
deriving DecidableEq, Repr

def terminalPlan (knobs : Knobs) (n : ℕ) (workload : Workload) (numThreads : ℕ) : TerminalPlan :=
  if prefersSerial n numThreads then .serial else .parallel (SplitPlan.new knobs n numThreads workload)

/-- what a terminal run depends on besides its items; `onPool` says whether the caller is a worker of this pool -/
structure Exec where
  knobs : Knobs
  workload : Workload
  numThreads : ℕ
  onPool : Bool
deriving DecidableEq, Repr

theorem splitDepth_pos (n numThreads oversplit : ℕ) : 1 ≤ splitDepth n numThreads oversplit := le_max_right _ _

/-- a parallel plan has a budget of at least one split -/
theorem depth_pos_of_parallel {knobs : Knobs} {n numThreads : ℕ} {workload : Workload} {plan : SplitPlan}
    (h : terminalPlan knobs n workload numThreads = .parallel plan) : 1 ≤ plan.depth ∧ 2 ≤ n := by
  unfold terminalPlan at h
  split_ifs at h with hs
  cases h
  simp only [prefersSerial, Bool.or_eq_true, decide_eq_true_eq, not_or] at hs
  exact ⟨splitDepth_pos _ _ _, by omega⟩

/-! ## Chunks -/

/-- a top-level range with the split budget of its tree -/
structure Chunk where
  start : ℕ
  stop : ℕ
  splits : ℕ
deriving DecidableEq, Repr

def hybridNumChunks (n : ℕ) (plan : SplitPlan) (numThreads : ℕ) : ℕ :=
  max (min (wrappingAdd numThreads plan.chunkSlack) n) 1

/-- log2 of the chunk count, rounded up without slack and down with it -/
def chunkLog2 (plan : SplitPlan) (numChunks : ℕ) : ℕ :=
  if plan.chunkSlack = 0 then trailingZeros (nextPowerOfTwo numChunks) else Nat.log2 numChunks

/-- the loop that builds the chunk jobs `i, i + 1, …` from index `start` on -/
def poolChunks (chunk rem splits : ℕ) : ℕ → ℕ → ℕ → List Chunk
  | 0, _, _ => []
  | count + 1, i, start =>
    let stop := start + (chunk + if i < rem then 1 else 0)
    ⟨start, stop, splits⟩ :: poolChunks chunk rem splits count (i + 1) stop

/-- the split budget of each chunk's tree; the driver runs a chunk itself when it is 0 -/
def chunkSplits (n : ℕ) (plan : SplitPlan) (numThreads : ℕ) : ℕ :=
  plan.depth - chunkLog2 plan (hybridNumChunks n plan numThreads)

/-- what `hybrid_dispatch` runs: one tree, or the driver's inline chunk with the injected and the reserve chunks -/
inductive Layout where
  | single (c : Chunk)
  | chunks (driver : Option Chunk) (injected reserve : List Chunk)
deriving DecidableEq, Repr

/-- the layout part of `hybrid_dispatch`; `onPool` says whether the caller is a worker of this pool. The subtractions do not
borrow (`two_le_of_participates`). -/
def hybridLayout (onPool : Bool) (mode : OnpoolHybrid) (n : ℕ) (plan : SplitPlan) (numThreads : ℕ) : Layout :=
  let numChunks := hybridNumChunks n plan numThreads
  let chunk := n / numChunks
  let rem := n % numChunks
  let driverParticipates := chunkSplits n plan numThreads == 0
  let firstPoolChunk := if driverParticipates then 1 else 0
  if onPool && (driverParticipates || mode == .off) then .single ⟨0, n, plan.depth⟩
  else
    let reserve := if driverParticipates then min ASSIST_RESERVE_CHUNKS (numChunks - firstPoolChunk - 1) else 0
    let driverEnd := if driverParticipates then chunk + (if 0 < rem then 1 else 0) else 0
    let jobs := poolChunks chunk rem (chunkSplits n plan numThreads) (numChunks - firstPoolChunk) firstPoolChunk driverEnd
    let injectedLen := jobs.length - reserve
    .chunks (if driverParticipates then some ⟨0, driverEnd, 0⟩ else none) (jobs.take injectedLen) (jobs.drop injectedLen)

/-- every chunk of a layout -/
def Layout.all : Layout → List Chunk
  | .single c => [c]
  | .chunks driver injected reserve => driver.toList ++ injected ++ reserve

/-! ## Geometry -/

/-- the driver's boundary formula: chunk `i` starts at `bound i` -/
def bound (chunk rem i : ℕ) : ℕ := i * chunk + min i rem

theorem bound_succ (chunk rem i : ℕ) : bound chunk rem (i + 1) = bound chunk rem i + (chunk + if i < rem then 1 else 0) := by
  unfold bound
  rw [Nat.succ_mul]
  split_ifs with h
  · rw [Nat.min_eq_left (show i + 1 ≤ rem by omega), Nat.min_eq_left (by omega)]
    omega
  · rw [Nat.min_eq_right (show rem ≤ i + 1 by omega), Nat.min_eq_right (by omega)]
    omega

theorem bound_mono (chunk rem : ℕ) : Monotone (bound chunk rem) := by
  apply monotone_nat_of_le_succ
  intro i
  rw [bound_succ]
  exact Nat.le_add_right _ _

theorem bound_last {n k : ℕ} (hk : 0 < k) : bound (n / k) (n % k) k = n := by
  unfold bound
  rw [Nat.min_eq_right (Nat.mod_lt n hk).le]
  exact Nat.div_add_mod n k

theorem length_poolChunks (chunk rem splits count : ℕ) : ∀ i start, (poolChunks chunk rem splits count i start).length = count := by
  induction count with
  | zero => intro _ _; rfl
  | succ count ih =>
    intro i start
    rw [poolChunks, List.length_cons, ih]

theorem poolChunks_eq (chunk rem splits count : ℕ) : ∀ i, poolChunks chunk rem splits count i (bound chunk rem i) =
    (List.range' i count).map fun k => ⟨bound chunk rem k, bound chunk rem (k + 1), splits⟩ := by
  induction count with
  | zero => intro i; rfl
  | succ count ih =>
    intro i
    simp only [poolChunks, List.range'_succ, List.map_cons, ← bound_succ, ih]

theorem hybridNumChunks_pos (n : ℕ) (plan : SplitPlan) (numThreads : ℕ) : 1 ≤ hybridNumChunks n plan numThreads :=
  le_max_right _ _

theorem hybridNumChunks_le {n : ℕ} (hn : 1 ≤ n) (plan : SplitPlan) (numThreads : ℕ) : hybridNumChunks n plan numThreads ≤ n :=
  max_le (min_le_right _ _) hn

/-- a driver that participates shares the batch with at least one other chunk -/
theorem two_le_of_participates {n : ℕ} {plan : SplitPlan} {numThreads : ℕ} (hd : 1 ≤ plan.depth)
    (h : chunkSplits n plan numThreads = 0) : 2 ≤ hybridNumChunks n plan numThreads := by
  have hpos := hybridNumChunks_pos n plan numThreads
  by_contra hlt
  have hone : hybridNumChunks n plan numThreads = 1 := by omega
  have hlog : chunkLog2 plan 1 = 0 := by
    unfold chunkLog2
    split_ifs
    · decide
    · decide
  rw [chunkSplits, hone, hlog] at h
  omega

/-- the `k` consecutive ranges between the bounds -/
def evenChunks (n k splits : ℕ) : List Chunk :=
  (List.range k).map fun i => ⟨bound (n / k) (n % k) i, bound (n / k) (n % k) (i + 1), splits⟩

/-- **The chunks of a dispatch**: one tree over `[0, n)`, for a worker of the pool, or the consecutive ranges between the
bounds, each with the same budget -/
theorem layout_chunks (onPool : Bool) (mode : OnpoolHybrid) (n : ℕ) (plan : SplitPlan) (numThreads : ℕ) :
    (onPool = true ∧ (hybridLayout onPool mode n plan numThreads).all = [⟨0, n, plan.depth⟩]) ∨
      (hybridLayout onPool mode n plan numThreads).all =
        evenChunks n (hybridNumChunks n plan numThreads) (chunkSplits n plan numThreads) := by
  have hpos := hybridNumChunks_pos n plan numThreads
  unfold hybridLayout evenChunks
  generalize hybridNumChunks n plan numThreads = k at hpos ⊢
  have hrange : List.range k = [0] ++ List.range' 1 (k - 1) := by
    obtain ⟨j, rfl⟩ : ∃ j, k = 1 + j := ⟨k - 1, by omega⟩
    rw [List.range_eq_range', ← List.range'_append_1, Nat.add_sub_cancel_left]
    rfl
  by_cases hp : chunkSplits n plan numThreads = 0
  · simp only [hp, beq_self_eq_true, Bool.true_or, Bool.and_true, if_true]
    cases onPool with
    | true => exact Or.inl ⟨rfl, rfl⟩
    | false =>
      right
      have hend : n / k + (if 0 < n % k then 1 else 0) = bound (n / k) (n % k) 1 := by
        rw [bound_succ]; simp [bound]
      simp only [Bool.false_eq_true, if_false, Layout.all, Option.toList_some, List.append_assoc, List.take_append_drop]
      rw [hend, poolChunks_eq, hrange, List.map_append]
      simp [bound]
  · have hbeq : (chunkSplits n plan numThreads == 0) = false := by simpa using hp
    simp only [hbeq, Bool.false_or, Bool.false_eq_true, if_false, Nat.sub_zero]
    by_cases hon : (onPool && mode == .off) = true
    · left
      rw [if_pos hon]
      exact ⟨(Bool.and_eq_true _ _ ▸ hon).1, rfl⟩
    · right
      rw [if_neg hon]
      have hall := poolChunks_eq (n / k) (n % k) (chunkSplits n plan numThreads) k 0
      rw [show bound (n / k) (n % k) 0 = 0 by simp [bound]] at hall
      simp only [Layout.all, Option.toList_none, List.nil_append, List.take_append_drop]
      rw [hall, List.range_eq_range']

theorem layout_ordered {onPool : Bool} {mode : OnpoolHybrid} {n : ℕ} {plan : SplitPlan} {numThreads : ℕ} {c : Chunk}
    (h : c ∈ (hybridLayout onPool mode n plan numThreads).all) : c.start ≤ c.stop := by
  rcases layout_chunks onPool mode n plan numThreads with ⟨-, hall⟩ | hall
  · rw [hall, List.mem_singleton] at h
    subst h
    exact Nat.zero_le n
  · rw [hall, evenChunks, List.mem_map] at h
    obtain ⟨i, -, rfl⟩ := h
    exact bound_mono _ _ (Nat.le_succ i)

/-- the chunks of a dispatch cut a batch of that length into consecutive pieces -/
theorem layout_slices {A : Type} (onPool : Bool) (mode : OnpoolHybrid) (plan : SplitPlan) (numThreads : ℕ) (xs : List A) :
    ((hybridLayout onPool mode xs.length plan numThreads).all.flatMap fun c => slice xs c.start c.stop) = xs := by
  rcases layout_chunks onPool mode xs.length plan numThreads with ⟨-, hall⟩ | hall
  · rw [hall, List.flatMap_cons, List.flatMap_nil, List.append_nil, slice_all]
  · rw [hall, evenChunks, List.flatMap_map]
    have hpieces := flatMap_slice xs (bound_mono (xs.length / hybridNumChunks xs.length plan numThreads)
      (xs.length % hybridNumChunks xs.length plan numThreads)) (hybridNumChunks xs.length plan numThreads)
    rw [bound_last (hybridNumChunks_pos xs.length plan numThreads)] at hpieces
    refine hpieces.trans ?_
    simp [bound, slice]

end YouPipe.Fused
