/-
The top-level chunks of a dispatch as a partition (`hybrid_dispatch` and `ChunkSlots` in `builder/typed/fused.rs`).

`checkedLayout` is the planning part of the dispatcher with every subtraction checked and with the count its latch is armed
with; `hybridLayout` is the same computation on naturals. For every plan that `SplitPlan::new` makes, no subtraction borrows,
the chunks are non-empty and tile `[0, n)`, the latch counts exactly the chunk jobs (each signals once, on success and on
failure alike), and `chunk_of` maps the start of a chunk back to its ordinal.
-/
import Mathlib
import YouPipe.Core.Tiling
import YouPipe.Core.Word
import YouPipe.Fused.Plan
import YouPipe.Fused.Reduce

namespace YouPipe.Fused

open YouPipe.Tiling YouPipe.Word

/-! ## Model -/

/-- what the planning part of `hybrid_dispatch` leaves: the chunks, and the count of the latch when one is armed -/
structure Planned where
  layout : Layout
  latch : Option ℕ
deriving DecidableEq, Repr

/-- `chunk_log2` as computed, by a subtraction when there is slack -/
def checkedChunkLog2 (plan : SplitPlan) (numChunks : ℕ) : Option ℕ :=
  if plan.chunkSlack = 0 then some (trailingZeros (nextPowerOfTwo numChunks)) else checkedSub (64 - 1) (leadingZeros numChunks)

/-- the planning part of `hybrid_dispatch`; `none` when a subtraction underflows. The subtraction of `chunk_splits` saturates. -/
def checkedLayout (onPool : Bool) (mode : OnpoolHybrid) (n : ℕ) (plan : SplitPlan) (numThreads : ℕ) : Option Planned := do
  let numChunks := hybridNumChunks n plan numThreads
  let log2 ← checkedChunkLog2 plan numChunks
  let splits := plan.depth - log2
  let chunk := n / numChunks
  let rem := n % numChunks
  let driverParticipates := splits == 0
  let firstPoolChunk := if driverParticipates then 1 else 0
  if onPool && (driverParticipates || mode == .off) then some ⟨.single ⟨0, n, plan.depth⟩, none⟩
  else do
    let reserve ← if driverParticipates then do
        let others ← checkedSub numChunks firstPoolChunk
        let spare ← checkedSub others 1
        some (min ASSIST_RESERVE_CHUNKS spare)
      else some 0
    let poolCount ← checkedSub numChunks firstPoolChunk
    let driverEnd := if driverParticipates then chunk + (if 0 < rem then 1 else 0) else 0
    let jobs := poolChunks chunk rem splits poolCount firstPoolChunk driverEnd
    let injectedLen ← checkedSub jobs.length reserve
    some ⟨.chunks (if driverParticipates then some ⟨0, driverEnd, 0⟩ else none) (jobs.take injectedLen) (jobs.drop injectedLen),
      some poolCount⟩

/-- the chunks that signal the latch: the injected ones, and the reserve the driver runs from its wait loop -/
def Layout.reporting : Layout → List Chunk
  | .single _ => []
  | .chunks _ injected reserve => injected ++ reserve

/-- the chunks cut `[0, n)` into consecutive non-empty ranges -/
structure Partition (n : ℕ) (cs : List Chunk) : Prop where
  tiles : Tiles 0 (cs.map fun c => (c.start, c.stop)) n
  nonempty : ∀ c ∈ cs, c.start < c.stop
  disjoint : cs.Pairwise fun c d => Disjoint (Set.Ico c.start c.stop) (Set.Ico d.start d.stop)
  cover : (⋃ c ∈ cs, Set.Ico c.start c.stop) = Set.Ico 0 n

/-! ## Checked subtractions -/

theorem checkedChunkLog2_eq {n : ℕ} (hn : 1 ≤ n) (hw : n < word) (plan : SplitPlan) (numThreads : ℕ) :
    checkedChunkLog2 plan (hybridNumChunks n plan numThreads) = some (chunkLog2 plan (hybridNumChunks n plan numThreads)) := by
  unfold checkedChunkLog2 chunkLog2
  split_ifs with h
  · rfl
  · have hle := hybridNumChunks_le hn plan numThreads
    exact checkedSub_leadingZeros (hybridNumChunks_pos n plan numThreads) (by omega)

/-- **No subtraction borrows**: the checked plan is the plan on naturals, with the latch armed for its chunk jobs -/
theorem checkedLayout_eq (onPool : Bool) (mode : OnpoolHybrid) {n : ℕ} (hn : 1 ≤ n) (hw : n < word) {plan : SplitPlan}
    (hd : 1 ≤ plan.depth) (numThreads : ℕ) :
    ∃ d, checkedLayout onPool mode n plan numThreads = some d ∧ d.layout = hybridLayout onPool mode n plan numThreads ∧
      ((∃ c, d.layout = .single c ∧ d.latch = none) ∨
        (∃ dr inj rs, d.layout = .chunks dr inj rs ∧ d.latch = some (d.layout.reporting.length) ∧
          1 ≤ d.layout.reporting.length)) := by
  have hpos := hybridNumChunks_pos n plan numThreads
  have hlog := checkedChunkLog2_eq hn hw plan numThreads
  by_cases hp : chunkSplits n plan numThreads = 0
  · -- the driver takes chunk 0, so there are two chunks at least
    have htwo := two_le_of_participates hd hp
    have hsub : plan.depth - chunkLog2 plan (hybridNumChunks n plan numThreads) = 0 := hp
    unfold checkedLayout hybridLayout
    simp only [hp, hsub, hlog, Option.bind_eq_bind, Option.bind_some, beq_self_eq_true, Bool.true_or, Bool.and_true, if_true]
    cases onPool with
    | true => exact ⟨_, rfl, rfl, Or.inl ⟨_, rfl, rfl⟩⟩
    | false =>
      simp only [Bool.false_eq_true, if_false]
      rw [checkedSub_of_le (show 1 ≤ hybridNumChunks n plan numThreads by omega), Option.bind_some,
        checkedSub_of_le (show 1 ≤ hybridNumChunks n plan numThreads - 1 by omega), Option.bind_some, Option.bind_some]
      rw [checkedSub_of_le (by rw [length_poolChunks]; exact (min_le_right _ _).trans (Nat.sub_le _ _)), Option.bind_some]
      refine ⟨_, rfl, rfl, Or.inr ⟨_, _, _, rfl, ?_, ?_⟩⟩
      · simp only [Layout.reporting, List.take_append_drop, length_poolChunks]
      · simp only [Layout.reporting, List.take_append_drop, length_poolChunks]
        omega
  · have hbeq : (chunkSplits n plan numThreads == 0) = false := by simpa using hp
    have hsub : (plan.depth - chunkLog2 plan (hybridNumChunks n plan numThreads) == 0) = false := hbeq
    unfold checkedLayout hybridLayout
    simp only [hlog, Option.bind_eq_bind, Option.bind_some, hsub, hbeq, Bool.false_or, Bool.false_eq_true, if_false, Nat.sub_zero]
    by_cases hon : (onPool && mode == .off) = true
    · rw [if_pos hon, if_pos hon]
      exact ⟨_, rfl, rfl, Or.inl ⟨_, rfl, rfl⟩⟩
    · rw [if_neg hon, if_neg hon, checkedSub_of_le (Nat.zero_le _), Option.bind_some, checkedSub_of_le (Nat.zero_le _),
        Option.bind_some]
      refine ⟨_, rfl, rfl, Or.inr ⟨_, _, _, rfl, ?_, ?_⟩⟩
      · simp only [Layout.reporting, List.take_append_drop, length_poolChunks, Nat.sub_zero]
      · simpa only [Layout.reporting, List.take_append_drop, length_poolChunks, Nat.sub_zero] using hpos

/-! ## Geometry -/

theorem Partition.of_tiles {n : ℕ} {cs : List Chunk} (ht : Tiles 0 (cs.map fun c => (c.start, c.stop)) n)
    (hne : ∀ c ∈ cs, c.start < c.stop) : Partition n cs := by
  refine ⟨ht, hne, ?_, ?_⟩
  · refine (List.pairwise_map.1 ht.pairwise).imp ?_
    intro c d hcd
    exact Set.Ico_disjoint_Ico.2 ((min_le_left _ _).trans (hcd.trans (le_max_right _ _)))
  · ext x
    simp only [Set.mem_iUnion, Set.mem_Ico, exists_prop, Nat.zero_le, true_and]
    constructor
    · rintro ⟨c, hc, -, hx⟩
      have hstop := (ht.bounds.2 _ (List.mem_map_of_mem hc)).2.2
      exact lt_of_lt_of_le hx hstop
    · intro hx
      obtain ⟨p, hp, hpx⟩ := ht.exists_mem (Nat.zero_le x) hx
      obtain ⟨c, hc, rfl⟩ := List.mem_map.1 hp
      exact ⟨c, hc, hpx⟩

theorem partition_evenChunks {n k : ℕ} (hk : 1 ≤ k) (hkn : k ≤ n) (splits : ℕ) : Partition n (evenChunks n k splits) := by
  have hchunk : 1 ≤ n / k := (Nat.one_le_div_iff hk).2 hkn
  apply Partition.of_tiles
  · have ht := tiles_range (bound_mono (n / k) (n % k)) k
    rw [bound_last hk, show bound (n / k) (n % k) 0 = 0 by simp [bound]] at ht
    rw [evenChunks, List.map_map]
    exact ht
  · intro c hc
    obtain ⟨i, -, rfl⟩ := List.mem_map.1 hc
    show bound (n / k) (n % k) i < bound (n / k) (n % k) (i + 1)
    rw [bound_succ]
    omega

/-- the front block of `chunk_of`, the wider chunks, ends inside `[0, n)` -/
theorem front_le {n k : ℕ} (hk : 1 ≤ k) : n % k * (n / k + 1) ≤ n := by
  have hlt := Nat.mod_lt n hk
  calc n % k * (n / k + 1) = n % k * (n / k) + n % k := Nat.mul_succ _ _
    _ ≤ k * (n / k) + n % k := Nat.add_le_add_right (Nat.mul_le_mul_right _ hlt.le) _
    _ = n := Nat.div_add_mod n k

/-! ## Theorem -/

/-- **The chunks of a hybrid dispatch**: for every batch of two items or more, every thread count and every plan made for
them, the planning does not underflow, its chunks are a partition of `[0, n)` into consecutive non-empty ranges, the latch is
armed with the number of chunks that report to it, and the reduce cells find the ordinal of a chunk from its start -/
theorem hybrid_partition (Acc : Type) (knobs : Knobs) (onPool : Bool) (mode : OnpoolHybrid) (n numThreads : ℕ)
    (workload : Workload) (hn : 2 ≤ n) (hw : n < word) :
    let plan := SplitPlan.new knobs n numThreads workload
    let slots : ChunkSlots Acc := ChunkSlots.new n (hybridNumChunks n plan numThreads)
    ∃ d, checkedLayout onPool mode n plan numThreads = some d ∧ d.layout = hybridLayout onPool mode n plan numThreads ∧
      Partition n d.layout.all ∧
      ((∃ c, d.layout = .single c ∧ d.latch = none) ∨
        (∃ driver injected reserve, d.layout = .chunks driver injected reserve ∧
          d.latch = some d.layout.reporting.length ∧ 1 ≤ d.layout.reporting.length)) ∧
      1 ≤ slots.chunk ∧ slots.rem * (slots.chunk + 1) ≤ n ∧
      ∀ i c, d.layout.all[i]? = some c → slots.chunkOf c.start = i := by
  intro plan slots
  have hk := hybridNumChunks_pos n plan numThreads
  have hkn := hybridNumChunks_le (by omega : 1 ≤ n) plan numThreads
  have hchunk : 1 ≤ slots.chunk := (Nat.one_le_div_iff hk).2 hkn
  have hinv : ∀ i, slots.chunkOf (bound (n / hybridNumChunks n plan numThreads) (n % hybridNumChunks n plan numThreads) i) = i :=
    fun i => chunkOf_bound hchunk i
  have hdepth : 1 ≤ plan.depth := splitDepth_pos _ _ _
  obtain ⟨d, hd, hlay, hlatch⟩ := checkedLayout_eq onPool mode (by omega : 1 ≤ n) hw hdepth numThreads
  refine ⟨d, hd, hlay, ?_, hlatch, hchunk, front_le hk, ?_⟩
  · rcases layout_chunks onPool mode n plan numThreads with ⟨-, hall⟩ | hall
    · rw [hlay, hall]
      apply Partition.of_tiles
      · exact .cons (Nat.zero_le n) (.nil n)
      · intro c hc
        rw [List.mem_singleton.1 hc]
        exact (by omega : 0 < n)
    · rw [hlay, hall]
      exact partition_evenChunks hk hkn _
  · intro i c hc
    rcases layout_chunks onPool mode n plan numThreads with ⟨-, hall⟩ | hall
    · rw [hlay, hall, List.getElem?_singleton] at hc
      split_ifs at hc with h0
      cases hc
      rw [h0]
      simpa [bound] using hinv 0
    · rw [hlay, hall, evenChunks, List.getElem?_map] at hc
      obtain ⟨j, hj, rfl⟩ := Option.map_eq_some_iff.1 hc
      obtain ⟨-, rfl⟩ := List.getElem?_eq_some_iff.1 hj
      rw [List.getElem_range]
      exact hinv i

/-- ten items and the default knobs on four threads: driver, two injected chunks and one in reserve, sizes 3, 3, 2, 2 -/
theorem hybrid_partition_ten :
    hybridLayout false .off 10 (SplitPlan.new ⟨none, none, .off⟩ 10 4 .balanced) 4 =
        .chunks (some ⟨0, 3, 0⟩) [⟨3, 6, 0⟩, ⟨6, 8, 0⟩] [⟨8, 10, 0⟩] ∧
      Partition 10 (hybridLayout false .off 10 (SplitPlan.new ⟨none, none, .off⟩ 10 4 .balanced) 4).all := by
  refine ⟨by decide, ?_⟩
  obtain ⟨d, -, hlay, hpart, -⟩ := hybrid_partition ℕ ⟨none, none, .off⟩ false .off 10 4 .balanced (by decide) (by decide)
  rwa [hlay] at hpart

end YouPipe.Fused
