/-
`Pipe::collect` (`builder/typed/fused.rs`) as a concurrent run. A batch with one item or a single-threaded pool is mapped
serially. Otherwise a chain that may filter is one fork/join tree whose leaves collect their survivors and whose nodes
concatenate (`par_filter_rec`), and a chain that cannot filter is run by the hybrid dispatcher: every chunk's tree walks its
range and writes `output[i] = f(input[i])` into the shared buffer.

A run of either core is a run of the fork/join pool, in any interleaving of the leaves of all chunks; the driver's inline
chunk and its reserve chunk are further jobs of the pool, which only adds schedules. The buffers are the slots of
`Fused.Slots`, replayed along the trace of processed items.

`collect_eq_filterMap`: every completed run returns the sequential `filter_map`, with every output slot written exactly once.
-/
import Mathlib.Tactic
import YouPipe.Core.ForkJoin
import YouPipe.Fused.Plan
import YouPipe.Fused.Slots
import YouPipe.Fused.Stages

namespace YouPipe.Fused

open YouPipe.ForkJoin

variable {I O : Type}

/-! ## Model -/

def serialStageCollect (stages : Chain I O) (items : List I) : List O :=
  if h : stages.mayFilter = false then items.map (FusedOp.apply ⟨stages, h⟩) else items.filterMap stages.apply

/-- one iteration of `filter_leaf` -/
def filterItem (stages : Chain I O) (out : List O) (a : I × ℕ) : Verdict (List O) := .next (out ++ (stages.apply a.1).toList)

/-- `l.extend(r)` -/
def extend (l r : List O) : List O := l ++ r

/-- `fused_filter_collect`: one `par_filter_rec` tree over the batch -/
def filterPool (items : List I) (splits : ℕ) : Pool ℕ (I × ℕ) (List O) :=
  ⟨[(0, treeJob items.zipIdx [] splits 0 items.length)], []⟩

/-- one iteration of `par_index_leaf`: the value goes to the shared output, the leaf carries none -/
def indexItem (_ : Unit) (_ : I × ℕ) : Verdict Unit := .next ()

/-- what that iteration does to the shared buffers -/
def indexWrite (op : FusedOp I O) (m : Mem O) (a : I × ℕ) : Mem O := (m.read a.2).write a.2 (op.apply a.1)

/-- the jobs of `par_index_collect`: one tree per chunk of the dispatcher's layout -/
def indexPool (ex : Exec) (items : List I) (plan : SplitPlan) : Pool ℕ (I × ℕ) Unit :=
  ⟨(hybridLayout ex.onPool ex.knobs.onpool items.length plan ex.numThreads).all.map fun c =>
    (c.start, treeJob items.zipIdx () c.splits c.start c.stop), []⟩

/-- `Slots::into_vec`: every slot must be init -/
def intoVec (m : Mem O) (n : ℕ) : Option (List O) :=
  (List.range n).mapM fun i => match m.output i with
    | .live v => some v
    | _ => none

/-- `out` is the result of some completed run of `Pipe::collect` -/
inductive Collects (ex : Exec) (stages : Chain I O) (items : List I) : List O → Prop where
  | empty (h : items = []) : Collects ex stages items []
  | serial (h : items ≠ []) (hp : terminalPlan ex.knobs items.length ex.workload ex.numThreads = .serial) :
      Collects ex stages items (serialStageCollect stages items)
  | filter (h : items ≠ []) {plan : SplitPlan}
      (hp : terminalPlan ex.knobs items.length ex.workload ex.numThreads = .parallel plan)
      (hf : stages.mayFilter = true) {n : ℕ} {tr : List (I × ℕ)} {q : Pool ℕ (I × ℕ) (List O)} {out : List O}
      (hr : Runs (filterItem stages) extend n (filterPool items plan.depth) tr q) (hq : q = ⟨[], [(0, out)]⟩) :
      Collects ex stages items out
  | index (h : items ≠ []) {plan : SplitPlan}
      (hp : terminalPlan ex.knobs items.length ex.workload ex.numThreads = .parallel plan)
      (hf : stages.mayFilter = false) {n : ℕ} {tr : List (I × ℕ)} {q : Pool ℕ (I × ℕ) Unit} {out : List O}
      (hr : Runs indexItem (fun _ _ => ()) n (indexPool ex items plan) tr q) (hq : q.running = [])
      (ho : intoVec (tr.foldl (indexWrite ⟨stages, hf⟩) Mem.fresh) items.length = some out) :
      Collects ex stages items out

/-! ## The filter core -/

theorem evalLeaf_filterItem (stages : Chain I O) (xs : List (I × ℕ)) (out : List O) :
    evalLeaf (filterItem stages) xs out = out ++ xs.filterMap fun a => stages.apply a.1 := by
  induction xs generalizing out with
  | nil => simp [evalLeaf]
  | cons a xs ih =>
    have hstep : evalLeaf (filterItem stages) (a :: xs) out =
        evalLeaf (filterItem stages) xs (out ++ (stages.apply a.1).toList) := rfl
    rw [hstep, ih, List.filterMap_cons]
    cases stages.apply a.1 with
    | none => simp
    | some v => simp

theorem filterMap_zipIdx (items : List I) (p : I → Option O) :
    (items.zipIdx.filterMap fun a => p a.1) = items.filterMap p := by
  conv_rhs => rw [← List.zipIdx_map_fst 0 items, List.filterMap_map]
  rfl

theorem eval_filterPool (stages : Chain I O) (items : List I) (splits : ℕ) :
    results (filterItem stages) extend (filterPool items splits) = [(0, items.filterMap stages.apply)] := by
  have hom : ∀ l r : List (I × ℕ), extend (evalLeaf (filterItem stages) l []) (evalLeaf (filterItem stages) r []) =
      evalLeaf (filterItem stages) (l ++ r) [] := by
    intro l r
    simp only [evalLeaf_filterItem, extend, List.nil_append, List.filterMap_append]
  have hlen : items.length = items.zipIdx.length := by simp
  simp only [results, filterPool, List.nil_append, List.map_cons, List.map_nil]
  rw [eval_treeJob items.zipIdx [] hom splits 0 items.length (Nat.zero_le _), evalLeaf_filterItem, List.nil_append, hlen,
    slice_all, filterMap_zipIdx]

/-! ## The index core -/

/-- the work of a dispatch is the whole batch, in order, whatever its layout -/
theorem work_indexPool (ex : Exec) (items : List I) (plan : SplitPlan) :
    poolWork (indexPool ex items plan) = items.zipIdx := by
  have hlen : items.length = items.zipIdx.length := by simp
  simp only [poolWork, indexPool, List.flatMap_map]
  have hwork : ∀ c ∈ (hybridLayout ex.onPool ex.knobs.onpool items.length plan ex.numThreads).all,
      work (treeJob items.zipIdx () c.splits c.start c.stop) = slice items.zipIdx c.start c.stop :=
    fun c hc => work_treeJob _ _ _ _ _ (layout_ordered hc)
  rw [List.flatMap_congr hwork, hlen, layout_slices]

theorem indexItem_total : Total (indexItem : Unit → I × ℕ → Verdict Unit) := fun _ _ => ⟨(), rfl⟩

/-- along every run the processed items and the outstanding ones are the batch, each once -/
theorem index_trace {ex : Exec} {items : List I} {plan : SplitPlan} {n : ℕ} {tr : List (I × ℕ)} {q : Pool ℕ (I × ℕ) Unit}
    (h : Runs indexItem (fun _ _ => ()) n (indexPool ex items plan) tr q) : (tr ++ poolWork q).Perm items.zipIdx := by
  rw [← work_indexPool ex items plan]
  exact h.trace indexItem_total

theorem index_complete {ex : Exec} {items : List I} {plan : SplitPlan} {n : ℕ} {tr : List (I × ℕ)} {q : Pool ℕ (I × ℕ) Unit}
    (h : Runs indexItem (fun _ _ => ()) n (indexPool ex items plan) tr q) (hq : q.running = []) : tr.Perm items.zipIdx := by
  simpa [poolWork, hq] using index_trace h

theorem zipIdx_nodup (items : List I) : (items.zipIdx.map Prod.snd).Nodup := by
  rw [List.zipIdx_map_snd]
  exact List.nodup_range'

/-- replaying distinct items is legal; it writes each item's slot, and only those -/
theorem replay_spec (op : FusedOp I O) (tr : List (I × ℕ)) (h : (tr.map Prod.snd).Nodup) :
    (tr.foldl (indexWrite op) Mem.fresh).faults = 0 ∧
      (∀ a ∈ tr, (tr.foldl (indexWrite op) Mem.fresh).output a.2 = .live (op.apply a.1) ∧
        (tr.foldl (indexWrite op) Mem.fresh).input a.2 = .moved) ∧
      ∀ i, i ∉ tr.map Prod.snd → (tr.foldl (indexWrite op) Mem.fresh).output i = .unwritten ∧
        (tr.foldl (indexWrite op) Mem.fresh).input i = .live := by
  induction tr using List.reverseRecOn with
  | nil => exact ⟨rfl, by simp, fun i _ => ⟨rfl, rfl⟩⟩
  | append_singleton tr a ih =>
    rw [List.map_append, List.nodup_append] at h
    have hnew : a.2 ∉ tr.map Prod.snd := fun hin => h.2.2 a.2 hin a.2 (by simp) rfl
    obtain ⟨hf, hdone, hfresh⟩ := ih h.1
    rw [List.foldl_append, List.foldl_cons, List.foldl_nil]
    generalize tr.foldl (indexWrite op) Mem.fresh = m at hf hdone hfresh
    obtain ⟨hout, hin⟩ := hfresh a.2 hnew
    have hread : m.read a.2 = { m with input := Function.update m.input a.2 .moved } := by simp [Mem.read, hin]
    have hwrite : indexWrite op m a = ⟨Function.update m.input a.2 .moved,
        Function.update m.output a.2 (.live (op.apply a.1)), m.faults⟩ := by
      unfold indexWrite
      rw [hread]
      simp [Mem.write, hout]
    rw [hwrite]
    dsimp only
    refine ⟨hf, fun c hc => ?_, fun i hi => ?_⟩
    · rcases List.mem_append.1 hc with hc | hc
      · have hne : c.2 ≠ a.2 := fun heq => hnew (heq ▸ List.mem_map_of_mem hc)
        rw [Function.update_of_ne hne, Function.update_of_ne hne]
        exact hdone c hc
      · obtain rfl := List.mem_singleton.1 hc
        rw [Function.update_self, Function.update_self]
        exact ⟨rfl, rfl⟩
    · rw [List.map_append, List.mem_append, not_or] at hi
      have hne : i ≠ a.2 := fun heq => hi.2 (by simp [heq])
      rw [Function.update_of_ne hne, Function.update_of_ne hne]
      exact hfresh i hi.1

theorem mapM_of_forall {α β : Type} {p : α → Option β} {r : α → β} (xs : List α) (h : ∀ a ∈ xs, p a = some (r a)) :
    xs.mapM p = some (xs.map r) := by
  induction xs with
  | nil => rfl
  | cons a xs ih =>
    rw [List.mapM_cons, h a List.mem_cons_self, ih fun b hb => h b (List.mem_cons_of_mem a hb)]
    rfl

/-- a completed trace leaves the mapped batch in the output -/
theorem intoVec_replay (op : FusedOp I O) (items : List I) {tr : List (I × ℕ)} (h : tr.Perm items.zipIdx) :
    intoVec (tr.foldl (indexWrite op) Mem.fresh) items.length = some (items.map op.apply) := by
  obtain ⟨-, hdone, -⟩ := replay_spec op tr ((h.map Prod.snd).nodup_iff.2 (zipIdx_nodup items))
  have hrange : List.range items.length = items.zipIdx.map Prod.snd := by
    rw [List.zipIdx_map_snd, List.range_eq_range']
  unfold intoVec
  rw [hrange, List.mapM_map, mapM_of_forall (r := fun a => op.apply a.1)]
  · conv_rhs => rw [← List.zipIdx_map_fst 0 items, List.map_map]
    rfl
  · intro a ha
    simp only [Function.comp, (hdone a (h.mem_iff.2 ha)).1]

/-! ## Results -/

theorem map_apply_eq (op : FusedOp I O) (items : List I) : items.map op.apply = items.filterMap op.stages.apply := by
  rw [← List.filterMap_eq_map]
  apply List.filterMap_congr
  intro x _
  exact (op.apply_spec x).symm

theorem serialStageCollect_eq (stages : Chain I O) (items : List I) :
    serialStageCollect stages items = items.filterMap stages.apply := by
  unfold serialStageCollect
  split_ifs with h
  · exact map_apply_eq ⟨stages, h⟩ items
  · rfl

/-- a state of the index core: no illegal access so far, it can go on until every job is done, and then every output slot
has been written and every input slot moved out -/
structure IndexState (op : FusedOp I O) (items : List I) (tr : List (I × ℕ)) (q : Pool ℕ (I × ℕ) Unit) : Prop where
  legal : (tr.foldl (indexWrite op) Mem.fresh).faults = 0
  progress : q.running ≠ [] → ∃ x q', PoolStep indexItem (fun _ _ => ()) q x q'
  written : q.running = [] → ∀ i < items.length, ∃ v, (tr.foldl (indexWrite op) Mem.fresh).output i = .live v ∧
    (tr.foldl (indexWrite op) Mem.fresh).input i = .moved

theorem index_state {ex : Exec} {items : List I} {plan : SplitPlan} (op : FusedOp I O) {n : ℕ} {tr : List (I × ℕ)}
    {q : Pool ℕ (I × ℕ) Unit} (h : Runs indexItem (fun _ _ => ()) n (indexPool ex items plan) tr q) :
    IndexState op items tr q := by
  have htr := index_trace h
  have hnd : (tr.map Prod.snd).Nodup := by
    have hall := (htr.map Prod.snd).nodup_iff.2 (zipIdx_nodup items)
    rw [List.map_append, List.nodup_append] at hall
    exact hall.1
  obtain ⟨hf, hdone, -⟩ := replay_spec op tr hnd
  refine ⟨hf, fun hq => pool_progress _ _ hq, fun hq i hi => ?_⟩
  have hmem : i ∈ tr.map Prod.snd := by
    rw [((index_complete h hq).map Prod.snd).mem_iff, List.zipIdx_map_snd, List.mem_range'_1]
    omega
  obtain ⟨a, ha, rfl⟩ := List.mem_map.1 hmem
  exact ⟨_, hdone a ha⟩

/-- **Parallel collect is the sequential `filter_map`.** For every chain, batch, workload, thread count and calling context:
every completed run returns the `filter_map` of the batch in input order, a completed run exists, and in the no-filter core
every reachable state is legal, is not stuck, and ends with every output slot written exactly once, within a bounded number
of steps. -/
theorem collect_eq_filterMap (ex : Exec) (stages : Chain I O) (items : List I) :
    (∀ out, Collects ex stages items out → out = items.filterMap stages.apply) ∧
    (∃ out, Collects ex stages items out) ∧
    ∀ (hf : stages.mayFilter = false) (plan : SplitPlan) (n : ℕ) (tr : List (I × ℕ)) (q : Pool ℕ (I × ℕ) Unit),
      Runs indexItem (fun _ _ => ()) n (indexPool ex items plan) tr q →
        IndexState ⟨stages, hf⟩ items tr q ∧ n ≤ poolSize (indexPool ex items plan) := by
  refine ⟨fun out hout => ?_, ?_, fun hf plan n tr q hr => ⟨index_state _ hr, ?_⟩⟩
  · cases hout with
    | empty h => rw [h]; rfl
    | serial h hp => exact serialStageCollect_eq stages items
    | filter h hp hf hr hq =>
      have hboard := hr.board (by rw [hq])
      rw [eval_filterPool, hq] at hboard
      have := List.singleton_perm_singleton.1 hboard
      exact (Prod.ext_iff.1 this).2
    | index h hp hf hr hq ho =>
      rw [intoVec_replay ⟨stages, hf⟩ items (index_complete hr hq), map_apply_eq ⟨stages, hf⟩ items] at ho
      exact (Option.some.inj ho).symm
  · by_cases h : items = []
    · exact ⟨[], .empty h⟩
    · cases hp : terminalPlan ex.knobs items.length ex.workload ex.numThreads with
      | serial => exact ⟨_, .serial h hp⟩
      | parallel plan =>
        cases hf : stages.mayFilter with
        | true =>
          obtain ⟨n, tr, q, hr, hq⟩ := runs_complete (filterItem stages) extend (filterPool items plan.depth)
          have hboard := hr.board hq
          rw [eval_filterPool] at hboard
          obtain ⟨running, board⟩ := q
          obtain rfl : running = [] := hq
          obtain rfl : board = _ := List.perm_singleton.1 hboard
          exact ⟨_, .filter h hp hf hr rfl⟩
        | false =>
          obtain ⟨n, tr, q, hr, hq⟩ := runs_complete indexItem (fun _ _ => ()) (indexPool ex items plan)
          exact ⟨_, .index h hp hf hr hq (intoVec_replay ⟨stages, hf⟩ items (index_complete hr hq))⟩
  · have := hr.bounded
    omega

end YouPipe.Fused
