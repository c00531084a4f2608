/-
The fused reduce terminals (`builder/typed/fused.rs`, reducers in `builder/typed/traits.rs`). Every chunk of the dispatcher's
layout folds its leaves from the identity and combines them up its tree; a finished chunk publishes its partial into the
cell of its ordinal, which it recovers from its start index (`chunk_of`), and the driver combines the full cells from left to
right. A worker of the pool that reduces a nested batch runs one tree and publishes cell 0 only. The fallible terminals stop
a leaf at its first error; a failed chunk publishes nothing and the first recorded failure is the result.

Chunks run and publish in any order (`ForkJoin.Runs`). With an associative combine, a right unit and a fold that is
`combine` with a one-item partial, the result is the serial left fold (`reduce_eq_fold`); nothing needs commutativity.
-/
import Mathlib.Tactic
import YouPipe.Core.ForkJoin
import YouPipe.Fused.Plan
import YouPipe.Fused.Stages

namespace YouPipe.Fused

open YouPipe.ForkJoin

variable {I O Acc E : Type}

/-! ## Model -/

structure Reducer (O Acc : Type) where
  identity : Acc
  fold : Acc → O → Acc
  combine : Acc → Acc → Acc

/-- the contract of `fold` and `combine`: an associative pair with the seed as right unit -/
structure Reducer.Lawful (r : Reducer O Acc) : Prop where
  assoc : ∀ a b c, r.combine (r.combine a b) c = r.combine a (r.combine b c)
  unit : ∀ a, r.combine a r.identity = a
  hom : ∀ a x, r.fold a x = r.combine a (r.fold r.identity x)

/-- `OptionReducer`, of `reduce(op)` -/
def optionReducer (op : O → O → O) : Reducer O (Option O) where
  identity := none
  fold acc item := some (match acc with
    | some a => op a item
    | none => item)
  combine
    | some a, some b => some (op a b)
    | some a, none => some a
    | none, some a => some a
    | none, none => none

/-- `CountReducer` -/
def countReducer : Reducer O ℕ := ⟨0, fun acc _ => acc + 1, fun l r => l + r⟩

/-- `FusedReduce::fold` -/
def fusedFold (stages : Chain I O) (r : Reducer O Acc) (acc : Acc) (item : I) : Acc :=
  if h : stages.mayFilter = false then r.fold acc (FusedOp.apply ⟨stages, h⟩ item)
  else match stages.apply item with
    | some o => r.fold acc o
    | none => acc

/-- `FusedTryReduce::try_fold` -/
def fusedTryFold (stages : TryChain I O E) (r : Reducer O Acc) (acc : Acc) (item : I) : Except E Acc := do
  match ← stages.tryApply item with
  | some o => .ok (r.fold acc o)
  | none => .ok acc

/-- one iteration of `reduce_leaf` -/
def reduceItem (stages : Chain I O) (r : Reducer O Acc) (acc : Acc) (item : I) : Verdict Acc :=
  .next (fusedFold stages r acc item)

/-- one iteration of `reduce_try_leaf` -/
def tryItem (stages : TryChain I O E) (r : Reducer O Acc) (acc : Except E Acc) (item : I) : Verdict (Except E Acc) :=
  match acc with
  | .error e => .stop (.error e)
  | .ok a => match fusedTryFold stages r a item with
    | .ok a' => .next (.ok a')
    | .error e => .stop (.error e)

/-- a node of `par_reduce_try_rec` -/
def tryCombine (r : Reducer O Acc) : Except E Acc → Except E Acc → Except E Acc
  | .ok a, .ok b => .ok (r.combine a b)
  | .error e, _ => .error e
  | _, .error e => .error e

/-- the cells the chunks publish into -/
structure ChunkSlots (Acc : Type) where
  cells : List (Option Acc)
  chunk : ℕ
  rem : ℕ

namespace ChunkSlots

def new (n numChunks : ℕ) : ChunkSlots Acc := ⟨List.replicate numChunks none, n / numChunks, n % numChunks⟩

/-- the ordinal of the chunk that starts at `start` -/
def chunkOf (s : ChunkSlots Acc) (start : ℕ) : ℕ :=
  let front := s.rem * (s.chunk + 1)
  if start < front then start / (s.chunk + 1) else s.rem + (start - front) / s.chunk

def publish (s : ChunkSlots Acc) (start : ℕ) (acc : Acc) : ChunkSlots Acc :=
  { s with cells := s.cells.set (s.chunkOf start) (some acc) }

/-- fold the full cells from left to right; `none` is the panic of the `expect` -/
def combine (s : ChunkSlots Acc) (f : Acc → Acc → Acc) : Option Acc :=
  s.cells.foldl (fun acc cell => match cell with
    | some a => some (match acc with
      | some x => f x a
      | none => a)
    | none => acc) none

end ChunkSlots

/-- the jobs of `par_reduce` and `par_reduce_try`, each leaf seeded with `init` -/
def reducePool {V : Type} (init : V) (ex : Exec) (items : List I) (plan : SplitPlan) : Pool ℕ I V :=
  ⟨(hybridLayout ex.onPool ex.knobs.onpool items.length plan ex.numThreads).all.map fun c =>
    (c.start, treeJob items init c.splits c.start c.stop), []⟩

/-- the cells after the chunks have finished in the order of the board -/
def published (ex : Exec) (n : ℕ) (plan : SplitPlan) (board : List (ℕ × Acc)) : ChunkSlots Acc :=
  board.foldl (fun s p => s.publish p.1 p.2) (ChunkSlots.new n (hybridNumChunks n plan ex.numThreads))

/-- the cells and the recorded failure after the chunks of a fallible run have finished in the order of the board -/
def settled (ex : Exec) (n : ℕ) (plan : SplitPlan) (board : List (ℕ × Except E Acc)) : ChunkSlots Acc × Option E :=
  board.foldl (fun s p => match p.2 with
    | .ok a => (s.1.publish p.1 a, s.2)
    | .error e => (s.1, s.2.or (some e)))
    (ChunkSlots.new n (hybridNumChunks n plan ex.numThreads), none)

/-- `res` is the result of some completed run of an infallible reduce terminal; `none` is a panic of the driver -/
inductive Reduces (ex : Exec) (stages : Chain I O) (r : Reducer O Acc) (items : List I) : Option Acc → Prop where
  | serial (hp : terminalPlan ex.knobs items.length ex.workload ex.numThreads = .serial) :
      Reduces ex stages r items (some (items.foldl (fusedFold stages r) r.identity))
  | parallel {plan : SplitPlan} (hp : terminalPlan ex.knobs items.length ex.workload ex.numThreads = .parallel plan)
      {n : ℕ} {tr : List I} {q : Pool ℕ I Acc}
      (hr : Runs (reduceItem stages r) r.combine n (reducePool r.identity ex items plan) tr q) (hq : q.running = []) :
      Reduces ex stages r items ((published ex items.length plan q.board).combine r.combine)

/-- `res` is the result of some completed run of a fallible reduce terminal -/
inductive TryReduces (ex : Exec) (stages : TryChain I O E) (r : Reducer O Acc) (items : List I) :
    Except E (Option Acc) → Prop where
  | serial (hp : terminalPlan ex.knobs items.length ex.workload ex.numThreads = .serial) :
      TryReduces ex stages r items ((items.foldlM (fusedTryFold stages r) r.identity).map some)
  | parallel {plan : SplitPlan} (hp : terminalPlan ex.knobs items.length ex.workload ex.numThreads = .parallel plan)
      {n : ℕ} {tr : List I} {q : Pool ℕ I (Except E Acc)}
      (hr : Runs (tryItem stages r) (tryCombine r) n (reducePool (.ok r.identity) ex items plan) tr q)
      (hq : q.running = []) :
      TryReduces ex stages r items (match (settled ex items.length plan q.board).2 with
        | some e => .error e
        | none => .ok ((settled ex items.length plan q.board).1.combine r.combine))

/-! ## Folds -/

theorem fusedFold_eq (stages : Chain I O) (r : Reducer O Acc) (acc : Acc) (item : I) :
    fusedFold stages r acc item = ((stages.apply item).elim acc (r.fold acc)) := by
  unfold fusedFold
  split_ifs with h
  · rw [show stages.apply item = _ from FusedOp.apply_spec ⟨stages, h⟩ item]; rfl
  · cases stages.apply item with
    | none => rfl
    | some o => rfl

/-- the fused fold is the fold over the survivors -/
theorem foldl_fusedFold (stages : Chain I O) (r : Reducer O Acc) (items : List I) (acc : Acc) :
    items.foldl (fusedFold stages r) acc = (items.filterMap stages.apply).foldl r.fold acc := by
  induction items generalizing acc with
  | nil => rfl
  | cons x xs ih =>
    rw [List.foldl_cons, ih, fusedFold_eq, List.filterMap_cons]
    cases stages.apply x with
    | none => rfl
    | some o => rfl

theorem evalLeaf_reduceItem (stages : Chain I O) (r : Reducer O Acc) (items : List I) (acc : Acc) :
    evalLeaf (reduceItem stages r) items acc = items.foldl (fusedFold stages r) acc := by
  induction items generalizing acc with
  | nil => rfl
  | cons x xs ih => exact ih _

theorem evalLeaf_tryItem (stages : TryChain I O E) (r : Reducer O Acc) (items : List I) (acc : Acc) :
    evalLeaf (tryItem stages r) items (.ok acc) = items.foldlM (fusedTryFold stages r) acc := by
  induction items generalizing acc with
  | nil => rfl
  | cons x xs ih =>
    rw [List.foldlM_cons]
    cases h : fusedTryFold stages r acc x with
    | ok a =>
      simp only [evalLeaf, tryItem, h]
      exact ih a
    | error e => simp [evalLeaf, tryItem, h, bind, Except.bind]

section Lawful

variable {r : Reducer O Acc} (hr : r.Lawful)

include hr

theorem combine_fold (a b : Acc) (x : O) : r.combine a (r.fold b x) = r.fold (r.combine a b) x := by
  rw [hr.hom b, hr.hom (r.combine a b), hr.assoc]

theorem combine_fusedFold (stages : Chain I O) (a b : Acc) (items : List I) :
    r.combine a (items.foldl (fusedFold stages r) b) = items.foldl (fusedFold stages r) (r.combine a b) := by
  induction items generalizing b with
  | nil => rfl
  | cons x xs ih =>
    rw [List.foldl_cons, List.foldl_cons, ih]
    congr 1
    rw [fusedFold_eq, fusedFold_eq]
    cases stages.apply x with
    | none => rfl
    | some o => exact combine_fold hr a b o

/-- folding two parts from the identity and combining is folding the whole -/
theorem fold_hom (stages : Chain I O) (xs ys : List I) :
    r.combine (xs.foldl (fusedFold stages r) r.identity) (ys.foldl (fusedFold stages r) r.identity) =
      (xs ++ ys).foldl (fusedFold stages r) r.identity := by
  rw [combine_fusedFold hr, hr.unit, List.foldl_append]

theorem combine_tryFold (stages : TryChain I O E) (a b : Acc) (x : I) :
    fusedTryFold stages r (r.combine a b) x = (fusedTryFold stages r b x).map (r.combine a) := by
  unfold fusedTryFold
  cases stages.tryApply x with
  | error e => rfl
  | ok o =>
    cases o with
    | none => rfl
    | some o => simp [bind, Except.bind, Except.map, combine_fold hr]

theorem combine_foldlM (stages : TryChain I O E) (a b : Acc) (items : List I) :
    items.foldlM (fusedTryFold stages r) (r.combine a b) = (items.foldlM (fusedTryFold stages r) b).map (r.combine a) := by
  induction items generalizing b with
  | nil => rfl
  | cons x xs ih =>
    rw [List.foldlM_cons, List.foldlM_cons, combine_tryFold hr]
    cases fusedTryFold stages r b x with
    | error e => rfl
    | ok c => exact ih c

/-- the same for the fallible fold: the left error wins, and the right part fails for the same item -/
theorem tryFold_hom (stages : TryChain I O E) (xs ys : List I) :
    tryCombine r (xs.foldlM (fusedTryFold stages r) r.identity) (ys.foldlM (fusedTryFold stages r) r.identity) =
      (xs ++ ys).foldlM (fusedTryFold stages r) r.identity := by
  rw [List.foldlM_append]
  cases xs.foldlM (fusedTryFold stages r) r.identity with
  | error e => rfl
  | ok a =>
    have hsplit := combine_foldlM hr stages a r.identity ys
    rw [hr.unit] at hsplit
    simp only [bind, Except.bind, hsplit]
    cases ys.foldlM (fusedTryFold stages r) r.identity with
    | error e => rfl
    | ok b => rfl

end Lawful

/-! ## Cells -/

/-- `chunk_of` inverts the boundary formula -/
theorem chunkOf_bound {s : ChunkSlots Acc} (hc : 1 ≤ s.chunk) (i : ℕ) : s.chunkOf (bound s.chunk s.rem i) = i := by
  unfold ChunkSlots.chunkOf bound
  rcases Nat.lt_or_ge i s.rem with h | h
  · have hstart : i * s.chunk + min i s.rem = i * (s.chunk + 1) := by rw [Nat.min_eq_left h.le, Nat.mul_succ]
    have hlt : i * (s.chunk + 1) < s.rem * (s.chunk + 1) := Nat.mul_lt_mul_of_pos_right h (Nat.succ_pos _)
    rw [hstart, if_pos hlt, Nat.mul_div_cancel _ (Nat.succ_pos _)]
  · have hfront : s.rem * (s.chunk + 1) ≤ i * s.chunk + s.rem := by
      rw [Nat.mul_succ]
      exact Nat.add_le_add_right (Nat.mul_le_mul_right _ h) _
    have hsub : i * s.chunk + s.rem - s.rem * (s.chunk + 1) = (i - s.rem) * s.chunk := by
      rw [Nat.mul_succ, Nat.add_sub_add_right, Nat.sub_mul]
    rw [Nat.min_eq_right h, if_neg (not_lt.2 hfront), hsub, Nat.mul_div_cancel _ hc, Nat.add_sub_cancel' h]

/-- the cells while chunks `i` with value `w i` publish in any order -/
theorem publish_cells {n k : ℕ} (hk : 1 ≤ k) (hkn : k ≤ n) (w : ℕ → Acc) (board : List (ℕ × Acc))
    (hb : ∀ p ∈ board, ∃ i < k, p = (bound (n / k) (n % k) i, w i)) :
    let s := board.foldl (fun s p => s.publish p.1 p.2) (ChunkSlots.new n k)
    s.chunk = n / k ∧ s.rem = n % k ∧ s.cells.length = k ∧
      ∀ i < k, s.cells[i]? = some (if bound (n / k) (n % k) i ∈ board.map Prod.fst then some (w i) else none) := by
  have hchunk : 1 ≤ n / k := Nat.div_pos hkn hk
  induction board using List.reverseRecOn with
  | nil =>
    refine ⟨rfl, rfl, by simp [ChunkSlots.new], fun i hi => ?_⟩
    simp [ChunkSlots.new, hi]
  | append_singleton board p ih =>
    obtain ⟨h1, h2, h3, h4⟩ := ih fun q hq => hb q (List.mem_append_left _ hq)
    obtain ⟨j, hj, rfl⟩ := hb p (List.mem_append_right _ (by simp))
    dsimp only at h1 h2 h3 h4 ⊢
    rw [List.foldl_append, List.foldl_cons, List.foldl_nil]
    generalize board.foldl (fun s p => s.publish p.1 p.2) (ChunkSlots.new n k) = s at h1 h2 h3 h4
    have hown : ∀ i, s.chunkOf (bound (n / k) (n % k) i) = i := fun i => by
      rw [← h1, ← h2]; exact chunkOf_bound (by omega) i
    refine ⟨h1, h2, by simp [ChunkSlots.publish, h3], fun i hi => ?_⟩
    simp only [ChunkSlots.publish, hown, List.getElem?_set, h3, hj, if_true, List.map_append, List.map_cons, List.map_nil,
      List.mem_append, List.mem_singleton]
    by_cases hij : j = i
    · subst hij; simp
    · have hne : bound (n / k) (n % k) i ≠ bound (n / k) (n % k) j := fun heq => hij (by rw [← hown j, ← heq, hown i])
      rw [if_neg hij, h4 i hi]
      simp only [hne, or_false]

/-- what the chunks of a dispatch publish when the items of a range reduce to `G` of them -/
def chunkResults {V : Type} (ex : Exec) (items : List I) (plan : SplitPlan) (G : List I → V) : List (ℕ × V) :=
  (hybridLayout ex.onPool ex.knobs.onpool items.length plan ex.numThreads).all.map fun c =>
    (c.start, G (slice items c.start c.stop))

/-- the values of the pool's jobs are those of their ranges -/
theorem results_reducePool {V : Type} {f : V → I → Verdict V} {g : V → V → V} {init : V}
    (hom : ∀ l r, g (evalLeaf f l init) (evalLeaf f r init) = evalLeaf f (l ++ r) init) (ex : Exec) (items : List I)
    (plan : SplitPlan) :
    results f g (reducePool init ex items plan) = chunkResults ex items plan fun xs => evalLeaf f xs init := by
  simp only [results, reducePool, chunkResults, List.nil_append, List.map_map]
  apply List.map_congr_left
  intro c hc
  simp only [Function.comp]
  rw [eval_treeJob items init hom c.splits c.start c.stop (layout_ordered hc)]

/-- folding the cells from left to right reassembles the batch -/
theorem combine_even {G : List I → Acc} {c : Acc → Acc → Acc} (hom : ∀ xs ys, c (G xs) (G ys) = G (xs ++ ys))
    (items : List I) {b : ℕ → ℕ} (hb : Monotone b) (chunk rem k : ℕ) :
    (⟨(List.range (k + 1)).map fun i => some (G (slice items (b i) (b (i + 1)))), chunk, rem⟩ : ChunkSlots Acc).combine c =
      some (G (slice items (b 0) (b (k + 1)))) := by
  induction k with
  | zero => simp [ChunkSlots.combine]
  | succ k ih =>
    unfold ChunkSlots.combine at ih ⊢
    rw [List.range_succ, List.map_append, List.foldl_append, ih]
    simp only [List.map_cons, List.map_nil, List.foldl_cons, List.foldl_nil]
    rw [hom, slice_append items (hb (Nat.zero_le _)) (hb (Nat.le_succ _))]

theorem foldl_replicate_none (f : Acc → Acc → Acc) (k : ℕ) (a : Option Acc) :
    (List.replicate k (none : Option Acc)).foldl (fun acc cell => match cell with
      | some a => some (match acc with
        | some x => f x a
        | none => a)
      | none => acc) a = a := by
  induction k with
  | zero => rfl
  | succ k ih => exact ih

/-- **Publication and combination.** In whatever order the chunks publish, the driver's combination is the value of the
whole batch. -/
theorem combine_published {G : List I → Acc} {c : Acc → Acc → Acc} (hom : ∀ xs ys, c (G xs) (G ys) = G (xs ++ ys))
    {ex : Exec} {items : List I} (hn : 1 ≤ items.length) {plan : SplitPlan} {board : List (ℕ × Acc)}
    (hb : board.Perm (chunkResults ex items plan G)) :
    (published ex items.length plan board).combine c = some (G items) := by
  have hpos := hybridNumChunks_pos items.length plan ex.numThreads
  have hle := hybridNumChunks_le hn plan ex.numThreads
  unfold published
  unfold chunkResults at hb
  rcases layout_chunks ex.onPool ex.knobs.onpool items.length plan ex.numThreads with ⟨-, hall⟩ | hall
  · -- one tree: only cell 0 is full
    rw [hall] at hb
    simp only [List.map_cons, List.map_nil, slice_all] at hb
    rw [List.perm_singleton.1 hb, List.foldl_cons, List.foldl_nil]
    generalize hybridNumChunks items.length plan ex.numThreads = k at hpos hle
    have hown : (ChunkSlots.new items.length k : ChunkSlots Acc).chunkOf 0 = 0 := by
      have := chunkOf_bound (s := (ChunkSlots.new items.length k : ChunkSlots Acc)) (Nat.div_pos hle hpos) 0
      simpa [bound] using this
    obtain ⟨j, rfl⟩ : ∃ j, k = j + 1 := ⟨k - 1, by omega⟩
    simp only [ChunkSlots.publish, hown]
    simp only [ChunkSlots.new, List.replicate_succ, List.set_cons_zero, ChunkSlots.combine, List.foldl_cons]
    exact foldl_replicate_none c j _
  · rw [hall] at hb
    generalize hybridNumChunks items.length plan ex.numThreads = k at hpos hle hb ⊢
    simp only [evenChunks, List.map_map] at hb
    have hmem : ∀ p ∈ board, ∃ i < k, p = (bound (items.length / k) (items.length % k) i,
        G (slice items (bound (items.length / k) (items.length % k) i)
          (bound (items.length / k) (items.length % k) (i + 1)))) := by
      intro p hp
      obtain ⟨i, hi, rfl⟩ := List.mem_map.1 (hb.mem_iff.1 hp)
      exact ⟨i, List.mem_range.1 hi, rfl⟩
    obtain ⟨h1, h2, h3, h4⟩ := publish_cells hpos hle _ board hmem
    generalize board.foldl (fun s p => s.publish p.1 p.2) (ChunkSlots.new items.length k) = s at h1 h2 h3 h4
    obtain ⟨cells, chunk, rem⟩ := s
    have hcells : cells = (List.range k).map fun i => some (G (slice items (bound (items.length / k) (items.length % k) i)
        (bound (items.length / k) (items.length % k) (i + 1)))) := by
      apply List.ext_getElem?
      intro i
      rcases Nat.lt_or_ge i k with hi | hi
      · have hin : bound (items.length / k) (items.length % k) i ∈ board.map Prod.fst := by
          rw [(hb.map Prod.fst).mem_iff, List.map_map]
          exact List.mem_map.2 ⟨i, List.mem_range.2 hi, rfl⟩
        rw [h4 i hi, if_pos hin]
        simp [hi]
      · dsimp only at h3
        rw [List.getElem?_eq_none (by omega), List.getElem?_eq_none (by simpa using hi)]
    obtain ⟨j, rfl⟩ : ∃ j, k = j + 1 := ⟨k - 1, by omega⟩
    rw [hcells, combine_even hom items (bound_mono _ _) chunk rem j, bound_last hpos]
    simp [bound, slice]

/-! ## Failures -/

/-- the error of an item -/
def errOf (stages : TryChain I O E) (x : I) : Option E :=
  match stages.tryApply x with
  | .error e => some e
  | .ok _ => none

/-- what an item that does not fail contributes -/
def survivor (stages : TryChain I O E) (x : I) : Option O :=
  match stages.tryApply x with
  | .ok o => o
  | .error _ => none

theorem fusedTryFold_ok {stages : TryChain I O E} (r : Reducer O Acc) (acc : Acc) {x : I} (h : errOf stages x = none) :
    fusedTryFold stages r acc x = .ok ((survivor stages x).elim acc (r.fold acc)) := by
  unfold errOf at h
  unfold fusedTryFold survivor
  cases hx : stages.tryApply x with
  | error e => rw [hx] at h; cases h
  | ok o =>
    cases o with
    | none => rfl
    | some v => rfl

theorem fusedTryFold_err {stages : TryChain I O E} (r : Reducer O Acc) (acc : Acc) {x : I} {e : E}
    (h : errOf stages x = some e) : fusedTryFold stages r acc x = .error e := by
  unfold errOf at h
  unfold fusedTryFold
  cases hx : stages.tryApply x with
  | error e' => rw [hx] at h; cases h; rfl
  | ok o => rw [hx] at h; cases h

/-- without an error the fallible fold is the fold over the survivors -/
theorem foldlM_ok {stages : TryChain I O E} (r : Reducer O Acc) {items : List I} (h : ∀ x ∈ items, errOf stages x = none)
    (acc : Acc) :
    items.foldlM (fusedTryFold stages r) acc = .ok ((items.filterMap (survivor stages)).foldl r.fold acc) := by
  induction items generalizing acc with
  | nil => rfl
  | cons x xs ih =>
    rw [List.foldlM_cons, fusedTryFold_ok r acc (h x List.mem_cons_self), List.filterMap_cons]
    have hxs := ih fun y hy => h y (List.mem_cons_of_mem x hy)
    cases survivor stages x with
    | none => exact hxs acc
    | some o => exact hxs (r.fold acc o)

/-- with an error the fallible fold returns the error of one of its items -/
theorem foldlM_err {stages : TryChain I O E} (r : Reducer O Acc) {items : List I} {x : I} (hx : x ∈ items)
    (he : errOf stages x ≠ none) (acc : Acc) :
    ∃ e, items.foldlM (fusedTryFold stages r) acc = .error e ∧ ∃ y ∈ items, errOf stages y = some e := by
  induction items generalizing acc with
  | nil => cases hx
  | cons y ys ih =>
    rw [List.foldlM_cons]
    cases hy : errOf stages y with
    | some e => exact ⟨e, by rw [fusedTryFold_err r acc hy]; rfl, y, List.mem_cons_self, hy⟩
    | none =>
      have hin : x ∈ ys := by
        rcases List.mem_cons.1 hx with rfl | h
        · exact absurd hy he
        · exact h
      obtain ⟨e, h1, z, hz, h2⟩ := ih hin ((survivor stages y).elim acc (r.fold acc))
      refine ⟨e, ?_, z, List.mem_cons_of_mem y hz, h2⟩
      rw [fusedTryFold_ok r acc hy]
      exact h1

/-- the recorded failure is the first error of the board; without one every chunk has published -/
theorem settled_eq (ex : Exec) (n : ℕ) (plan : SplitPlan) (board : List (ℕ × Except E Acc)) :
    (∃ vs, board = vs.map (fun p => (p.1, .ok p.2)) ∧ settled ex n plan board = (published ex n plan vs, none)) ∨
      ∃ e s, (settled ex n plan board).2 = some e ∧ (s, Except.error e) ∈ board := by
  induction board using List.reverseRecOn with
  | nil => exact Or.inl ⟨[], rfl, rfl⟩
  | append_singleton board p ih =>
    obtain ⟨s, v⟩ := p
    unfold settled at ih ⊢
    rw [List.foldl_append, List.foldl_cons, List.foldl_nil]
    rcases ih with ⟨vs, rfl, h⟩ | ⟨e, s', h, hin⟩
    · rw [h]
      cases v with
      | ok a =>
        refine Or.inl ⟨vs ++ [(s, a)], by simp, ?_⟩
        simp [published]
      | error e => exact Or.inr ⟨e, s, rfl, by simp⟩
    · right
      refine ⟨e, s', ?_, List.mem_append_left _ hin⟩
      generalize board.foldl _ _ = st at h
      cases v with
      | ok a => exact h
      | error e' =>
        show st.2.or (some e') = some e
        rw [h]; rfl

/-- a batch without an error: every chunk publishes the fold over its survivors -/
theorem try_ok {ex : Exec} {r : Reducer O Acc} (hr : r.Lawful) {stages : TryChain I O E} {items : List I}
    (hn : 1 ≤ items.length) {plan : SplitPlan} {board : List (ℕ × Except E Acc)}
    (hboard : board.Perm (chunkResults ex items plan fun xs => xs.foldlM (fusedTryFold stages r) r.identity))
    (hok : ∀ x ∈ items, errOf stages x = none) :
    ∃ s, settled ex items.length plan board = (s, none) ∧
      s.combine r.combine = some ((items.filterMap (survivor stages)).foldl r.fold r.identity) := by
  have hvalues : chunkResults ex items plan (fun xs => xs.foldlM (fusedTryFold stages r) r.identity) =
      (chunkResults ex items plan fun xs => (xs.filterMap (survivor stages)).foldl r.fold r.identity).map
        fun p => (p.1, .ok p.2) := by
    simp only [chunkResults, List.map_map]
    apply List.map_congr_left
    intro c _
    have hslice : ∀ x ∈ slice items c.start c.stop, errOf stages x = none := fun x hx => hok x (mem_of_mem_slice hx)
    simp only [Function.comp]
    rw [foldlM_ok r hslice]
  have hhom : ∀ xs ys : List I, r.combine ((xs.filterMap (survivor stages)).foldl r.fold r.identity)
      ((ys.filterMap (survivor stages)).foldl r.fold r.identity) =
      ((xs ++ ys).filterMap (survivor stages)).foldl r.fold r.identity := by
    intro xs ys
    have h := fold_hom hr (Chain.identity O) (xs.filterMap (survivor stages)) (ys.filterMap (survivor stages))
    simp only [foldl_fusedFold] at h
    simpa [Chain.apply, List.filterMap_append] using h
  rw [hvalues] at hboard
  rcases settled_eq ex items.length plan board with ⟨vs, rfl, hset⟩ | ⟨e, s, -, hin⟩
  · have hinj : Function.Injective fun p : ℕ × Acc => (p.1, (Except.ok p.2 : Except E Acc)) := by
      rintro ⟨a, b⟩ ⟨c, d⟩ h
      simpa using h
    exact ⟨_, hset, combine_published hhom hn ((List.map_perm_map_iff hinj).1 hboard)⟩
  · obtain ⟨p, -, hp⟩ := List.mem_map.1 (hboard.mem_iff.1 hin)
    simp at hp

/-- a batch with an error: some chunk fails, and what is recorded is the error of an item -/
theorem try_err {ex : Exec} {r : Reducer O Acc} {stages : TryChain I O E} {items : List I} {plan : SplitPlan}
    {board : List (ℕ × Except E Acc)}
    (hboard : board.Perm (chunkResults ex items plan fun xs => xs.foldlM (fusedTryFold stages r) r.identity))
    (hbad : ∃ x ∈ items, errOf stages x ≠ none) :
    ∃ e, (settled ex items.length plan board).2 = some e ∧ ∃ x ∈ items, errOf stages x = some e := by
  obtain ⟨x, hx, he⟩ := hbad
  rcases settled_eq ex items.length plan board with ⟨vs, rfl, -⟩ | ⟨e, s, hset, hin⟩
  · -- the failing item is in some chunk, and that chunk's entry is an error
    have hpieces := layout_slices ex.onPool ex.knobs.onpool plan ex.numThreads items
    rw [← hpieces] at hx
    obtain ⟨c, hc, hxc⟩ := List.mem_flatMap.1 hx
    obtain ⟨e, hfold, -⟩ := foldlM_err r hxc he r.identity
    have hin := hboard.mem_iff.2 (List.mem_map_of_mem hc)
    dsimp only at hin
    rw [hfold] at hin
    obtain ⟨p, -, hp⟩ := List.mem_map.1 hin
    simp at hp
  · refine ⟨e, hset, ?_⟩
    obtain ⟨c, hc, heq⟩ := List.mem_map.1 (hboard.mem_iff.1 hin)
    have hfold : (slice items c.start c.stop).foldlM (fusedTryFold stages r) r.identity = .error e := (Prod.ext_iff.1 heq).2
    by_cases hall : ∀ y ∈ slice items c.start c.stop, errOf stages y = none
    · rw [foldlM_ok r hall] at hfold
      cases hfold
    · push Not at hall
      obtain ⟨y, hy, hey⟩ := hall
      obtain ⟨e', hfold', z, hz, hez⟩ := foldlM_err r hy hey r.identity
      rw [hfold'] at hfold
      cases hfold
      exact ⟨z, mem_of_mem_slice hz, hez⟩

/-! ## Results -/

/-- **Parallel reduce is the serial fold.** For every chain, batch, workload, thread count, calling context and lawful
reducer: every completed run of the infallible terminal returns the left fold over the survivors in input order; every
completed run of the fallible one returns `Ok` of that fold when no item's op errs, and otherwise the error of some item; and
in both cases a completed run exists. -/
theorem reduce_eq_fold (ex : Exec) (r : Reducer O Acc) (hr : r.Lawful) (items : List I) :
    (∀ stages : Chain I O, (∃ res, Reduces ex stages r items res) ∧
      ∀ res, Reduces ex stages r items res → res = some ((items.filterMap stages.apply).foldl r.fold r.identity)) ∧
    ∀ stages : TryChain I O E, (∃ res, TryReduces ex stages r items res) ∧
      ∀ res, TryReduces ex stages r items res →
        ((∀ x ∈ items, errOf stages x = none) →
          res = .ok (some ((items.filterMap (survivor stages)).foldl r.fold r.identity))) ∧
        ((∃ x ∈ items, errOf stages x ≠ none) → ∃ e, res = .error e ∧ ∃ x ∈ items, errOf stages x = some e) := by
  refine ⟨fun stages => ⟨?_, fun res hres => ?_⟩, fun stages => ⟨?_, fun res hres => ?_⟩⟩
  · cases hp : terminalPlan ex.knobs items.length ex.workload ex.numThreads with
    | serial => exact ⟨_, .serial hp⟩
    | parallel plan =>
      obtain ⟨n, tr, q, hrun, hq⟩ := runs_complete (reduceItem stages r) r.combine (reducePool r.identity ex items plan)
      exact ⟨_, .parallel hp hrun hq⟩
  · rw [← foldl_fusedFold]
    cases hres with
    | serial hp => rfl
    | parallel hp hrun hq =>
      have hn := (depth_pos_of_parallel hp).2
      have hboard := hrun.board hq
      rw [results_reducePool (fun l r' => by simp only [evalLeaf_reduceItem]; exact fold_hom hr stages l r')] at hboard
      simp only [evalLeaf_reduceItem] at hboard
      exact combine_published (fold_hom hr stages) (by omega) hboard
  · cases hp : terminalPlan ex.knobs items.length ex.workload ex.numThreads with
    | serial => exact ⟨_, .serial hp⟩
    | parallel plan =>
      obtain ⟨n, tr, q, hrun, hq⟩ := runs_complete (tryItem stages r) (tryCombine r)
        (reducePool (.ok r.identity) ex items plan)
      exact ⟨_, .parallel hp hrun hq⟩
  · cases hres with
    | serial hp =>
      refine ⟨fun hok => by rw [foldlM_ok r hok]; rfl, fun ⟨x, hx, he⟩ => ?_⟩
      obtain ⟨e, h1, hy⟩ := foldlM_err r hx he r.identity
      exact ⟨e, by rw [h1]; rfl, hy⟩
    | parallel hp hrun hq =>
      have hn := (depth_pos_of_parallel hp).2
      have hboard := hrun.board hq
      rw [results_reducePool (fun l r' => by simp only [evalLeaf_tryItem]; exact tryFold_hom hr stages l r')] at hboard
      simp only [evalLeaf_tryItem] at hboard
      refine ⟨fun hok => ?_, fun hbad => ?_⟩
      · obtain ⟨s, hset, hval⟩ := try_ok hr (by omega) hboard hok
        rw [hset]
        exact congrArg Except.ok hval
      · obtain ⟨e, hset, hitem⟩ := try_err hboard hbad
        rw [hset]
        exact ⟨e, rfl, hitem⟩

theorem optionReducer_lawful {op : O → O → O} (h : ∀ a b c, op (op a b) c = op a (op b c)) : (optionReducer op).Lawful := by
  refine ⟨fun a b c => ?_, fun a => ?_, fun a x => ?_⟩
  · cases a <;> cases b <;> cases c <;> simp [optionReducer, h]
  · cases a <;> rfl
  · cases a <;> rfl

theorem countReducer_lawful : (countReducer : Reducer O ℕ).Lawful :=
  ⟨fun a b c => Nat.add_assoc a b c, fun a => Nat.add_zero a, fun a _ => congrArg (a + ·) (Nat.zero_add 1).symm⟩

/-- on a pool of four threads, `reduce` by list concatenation, which does not commute, and `count` -/
theorem reduce_eq_fold_append :
    ((∃ res, Reduces ⟨⟨none, none, .off⟩, .balanced, 4, false⟩ (.syncMap (.identity ℕ) fun x => [x]) (optionReducer (· ++ ·))
      [1, 2, 3] res) ∧
    ∀ res, Reduces ⟨⟨none, none, .off⟩, .balanced, 4, false⟩ (.syncMap (.identity ℕ) fun x => [x]) (optionReducer (· ++ ·))
      [1, 2, 3] res → res = some (some [1, 2, 3])) ∧
    ∀ res, Reduces ⟨⟨none, none, .off⟩, .balanced, 4, false⟩ (.syncMap (.identity ℕ) fun x => [x]) countReducer [1, 2, 3] res →
      res = some 3 :=
  ⟨(reduce_eq_fold (E := Empty) _ _ (optionReducer_lawful List.append_assoc) _).1 _,
    ((reduce_eq_fold (E := Empty) _ _ countReducer_lawful _).1 _).2⟩

end YouPipe.Fused
