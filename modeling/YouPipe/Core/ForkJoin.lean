/-
Fork/join computations under every interleaving. A job is a leaf that works through a list of items with an accumulator, a
fork of two jobs whose results are combined when both have returned, or a returned value. A leaf may stop early. A pool is a
list of keyed jobs that step independently of each other; a job that has returned is taken off the pool and its value is
published under its key, so the board lists the results in the order of completion.

Nothing limits who steps next, so a run of a pool covers every number of threads, every stealing decision and every order of
chunk completions.

Main lemmas:
- `Runs.board`: however the steps interleave, the published values are the values of the jobs (`eval`);
- `Runs.trace`: the items processed along a run are those of the jobs' work lists, each exactly once;
- `pool_progress`, `Runs.bounded`: a pool that still has jobs can step, and a run has at most `size` steps.
-/
import Mathlib.Tactic

namespace YouPipe.ForkJoin

/-- what a leaf makes of its next item -/
inductive Verdict (V : Type) where
  | next (v : V)
  | stop (v : V)
deriving DecidableEq, Repr

inductive Job (A V : Type) where
  | leaf (todo : List A) (acc : V)
  | fork (l r : Job A V)
  | ret (v : V)
deriving Repr

/-- jobs in progress and published results -/
structure Pool (K A V : Type) where
  running : List (K × Job A V)
  board : List (K × V)
deriving Repr

variable {K A V : Type} (f : V → A → Verdict V) (g : V → V → V)

/-- one step of a job, labelled with the item it processes -/
inductive Step : Job A V → Option A → Job A V → Prop where
  | item {a : A} {rest : List A} {acc v : V} (h : f acc a = .next v) : Step (.leaf (a :: rest) acc) (some a) (.leaf rest v)
  | stop {a : A} {rest : List A} {acc v : V} (h : f acc a = .stop v) : Step (.leaf (a :: rest) acc) (some a) (.ret v)
  | finish {acc : V} : Step (.leaf [] acc) none (.ret acc)
  | left {l l' r : Job A V} {x : Option A} (h : Step l x l') : Step (.fork l r) x (.fork l' r)
  | right {l r r' : Job A V} {x : Option A} (h : Step r x r') : Step (.fork l r) x (.fork l r')
  | join {a b : V} : Step (.fork (.ret a) (.ret b)) none (.ret (g a b))

inductive PoolStep : Pool K A V → Option A → Pool K A V → Prop where
  | run {pre post : List (K × Job A V)} {board : List (K × V)} {k : K} {j j' : Job A V} {x : Option A}
      (h : Step f g j x j') : PoolStep ⟨pre ++ (k, j) :: post, board⟩ x ⟨pre ++ (k, j') :: post, board⟩
  | publish {pre post : List (K × Job A V)} {board : List (K × V)} {k : K} {v : V} :
      PoolStep ⟨pre ++ (k, .ret v) :: post, board⟩ none ⟨pre ++ post, board ++ [(k, v)]⟩

/-- a run of `n` steps that processes the items `tr`, in this order -/
inductive Runs : ℕ → Pool K A V → List A → Pool K A V → Prop where
  | refl (p : Pool K A V) : Runs 0 p [] p
  | step {n : ℕ} {p q r : Pool K A V} {x : Option A} {tr : List A} (h : PoolStep f g p x q) (hr : Runs n q tr r) :
      Runs (n + 1) p (x.toList ++ tr) r

/-! ## Values -/

/-- the value of a leaf: the items in order, up to the first stop -/
def evalLeaf : List A → V → V
  | [], acc => acc
  | a :: rest, acc => match f acc a with
    | .next v => evalLeaf rest v
    | .stop v => v

def eval : Job A V → V
  | .leaf todo acc => evalLeaf f todo acc
  | .fork l r => g (eval l) (eval r)
  | .ret v => v

/-- the published and the still outstanding results -/
def results (p : Pool K A V) : List (K × V) := p.board ++ p.running.map fun c => (c.1, eval f g c.2)

variable {f g}

/-- no step changes what a job will return -/
theorem Step.eval_eq {j j' : Job A V} {x : Option A} (h : Step f g j x j') : eval f g j' = eval f g j := by
  induction h with
  | item h => simp [eval, evalLeaf, h]
  | stop h => simp [eval, evalLeaf, h]
  | finish => rfl
  | left _ ih => simp [eval, ih]
  | right _ ih => simp [eval, ih]
  | join => rfl

theorem PoolStep.results_perm {p q : Pool K A V} {x : Option A} (h : PoolStep f g p x q) :
    (results f g q).Perm (results f g p) := by
  cases h with
  | run h => simp [results, h.eval_eq]
  | publish =>
    simp only [results, List.map_append, List.map_cons, eval, List.append_assoc, List.singleton_append]
    exact List.Perm.append_left _ List.perm_middle.symm

/-- **The board.** When no job is left, the board holds the value of every job of the pool, exactly once -/
theorem Runs.board {n : ℕ} {p q : Pool K A V} {tr : List A} (h : Runs f g n p tr q) (hq : q.running = []) :
    q.board.Perm (results f g p) := by
  induction h with
  | refl p => simp [results, hq]
  | step hs _ ih => exact (ih hq).trans hs.results_perm

/-! ## Work -/

theorem perm_append_left_comm (a b c : List A) : (a ++ (b ++ c)).Perm (b ++ (a ++ c)) := by
  rw [← List.append_assoc, ← List.append_assoc]
  exact List.perm_append_comm.append_right c

/-- the items a job has yet to process, left to right -/
def work : Job A V → List A
  | .leaf todo _ => todo
  | .fork l r => work l ++ work r
  | .ret _ => []

def poolWork (p : Pool K A V) : List A := p.running.flatMap fun c => work c.2

/-- no leaf stops early -/
def Total (f : V → A → Verdict V) : Prop := ∀ acc a, ∃ v, f acc a = .next v

theorem Step.work_perm (hf : Total f) {j j' : Job A V} {x : Option A} (h : Step f g j x j') :
    (x.toList ++ work j').Perm (work j) := by
  induction h with
  | item h => simp [work]
  | @stop a rest acc v h =>
    obtain ⟨v', hv'⟩ := hf acc a
    rw [h] at hv'; cases hv'
  | finish => simp [work]
  | left _ ih =>
    simp only [work, ← List.append_assoc]
    exact ih.append_right _
  | @right l r r' x _ ih =>
    simp only [work]
    exact (perm_append_left_comm _ _ _).trans (ih.append_left _)
  | join => simp [work]

theorem PoolStep.work_perm (hf : Total f) {p q : Pool K A V} {x : Option A} (h : PoolStep f g p x q) :
    (x.toList ++ poolWork q).Perm (poolWork p) := by
  cases h with
  | @run pre post board k j j' x h =>
    simp only [poolWork, List.flatMap_append, List.flatMap_cons]
    refine (perm_append_left_comm _ _ _).trans (List.Perm.append_left _ ?_)
    rw [← List.append_assoc]
    exact (h.work_perm hf).append_right _
  | publish => simp [poolWork, work]

/-- **The trace.** Processed items and outstanding work together are the pool's work list -/
theorem Runs.trace (hf : Total f) {n : ℕ} {p q : Pool K A V} {tr : List A} (h : Runs f g n p tr q) :
    (tr ++ poolWork q).Perm (poolWork p) := by
  induction h with
  | refl p => simp
  | step hs _ ih =>
    rw [List.append_assoc]
    exact (ih.append_left _).trans (hs.work_perm hf)

/-! ## Progress and termination -/

/-- an upper bound on the steps of a job -/
def size : Job A V → ℕ
  | .leaf todo _ => todo.length + 1
  | .fork l r => size l + size r + 1
  | .ret _ => 0

def poolSize (p : Pool K A V) : ℕ := (p.running.map fun c => size c.2 + 1).sum

theorem Step.size_lt {j j' : Job A V} {x : Option A} (h : Step f g j x j') : size j' < size j := by
  induction h with
  | item h => simp [size]
  | stop h => simp [size]
  | finish => simp [size]
  | left _ ih => simp only [size]; omega
  | right _ ih => simp only [size]; omega
  | join => simp [size]

theorem PoolStep.size_lt {p q : Pool K A V} {x : Option A} (h : PoolStep f g p x q) : poolSize q < poolSize p := by
  cases h with
  | run h =>
    have := h.size_lt
    simp only [poolSize, List.map_append, List.map_cons, List.sum_append, List.sum_cons]
    omega
  | publish =>
    simp only [poolSize, List.map_append, List.map_cons, List.sum_append, List.sum_cons]
    omega

/-- no run is longer than the pool's size -/
theorem Runs.bounded {n : ℕ} {p q : Pool K A V} {tr : List A} (h : Runs f g n p tr q) : n + poolSize q ≤ poolSize p := by
  induction h with
  | refl p => simp
  | step hs _ ih => have := hs.size_lt; omega

theorem job_progress (f : V → A → Verdict V) (g : V → V → V) (j : Job A V) :
    (∃ v, j = .ret v) ∨ ∃ x j', Step f g j x j' := by
  induction j with
  | leaf todo acc =>
    right
    cases todo with
    | nil => exact ⟨none, _, .finish⟩
    | cons a rest =>
      cases h : f acc a with
      | next v => exact ⟨some a, _, .item h⟩
      | stop v => exact ⟨some a, _, .stop h⟩
  | fork l r ihl ihr =>
    right
    rcases ihl with ⟨a, rfl⟩ | ⟨x, l', hl⟩
    · rcases ihr with ⟨b, rfl⟩ | ⟨x, r', hr⟩
      · exact ⟨none, _, .join⟩
      · exact ⟨x, _, .right hr⟩
    · exact ⟨x, _, .left hl⟩
  | ret v => exact Or.inl ⟨v, rfl⟩

theorem pool_progress (f : V → A → Verdict V) (g : V → V → V) {p : Pool K A V} (h : p.running ≠ []) :
    ∃ x q, PoolStep f g p x q := by
  obtain ⟨running, board⟩ := p
  cases running with
  | nil => exact absurd rfl h
  | cons c rest =>
    obtain ⟨k, j⟩ := c
    rcases job_progress f g j with ⟨v, rfl⟩ | ⟨x, j', hj⟩
    · exact ⟨none, _, @PoolStep.publish K A V f g [] rest board k v⟩
    · exact ⟨x, _, @PoolStep.run K A V f g [] rest board k j j' x hj⟩

/-- every pool can be run to its end -/
theorem runs_complete (f : V → A → Verdict V) (g : V → V → V) (p : Pool K A V) :
    ∃ n tr q, Runs f g n p tr q ∧ q.running = [] := by
  induction hs : poolSize p using Nat.strong_induction_on generalizing p with
  | _ s ih =>
    by_cases hp : p.running = []
    · exact ⟨0, [], p, .refl p, hp⟩
    · obtain ⟨x, q, hstep⟩ := pool_progress f g hp
      obtain ⟨n, tr, r, hr, hdone⟩ := ih _ (hs ▸ hstep.size_lt) q rfl
      exact ⟨n + 1, _, r, .step hstep hr, hdone⟩

/-! ## Range halving -/

/-- the items of `xs` with index in `[s, e)` -/
def slice (xs : List A) (s e : ℕ) : List A := (xs.drop s).take (e - s)

theorem slice_append (xs : List A) {s m e : ℕ} (h1 : s ≤ m) (h2 : m ≤ e) :
    slice xs s m ++ slice xs m e = slice xs s e := by
  unfold slice
  rw [show e - s = (m - s) + (e - m) by omega, List.take_add, List.drop_drop, show s + (m - s) = m by omega]

theorem slice_all (xs : List A) : slice xs 0 xs.length = xs := by simp [slice]

theorem mem_of_mem_slice {xs : List A} {s e : ℕ} {a : A} (h : a ∈ slice xs s e) : a ∈ xs :=
  List.mem_of_mem_drop (List.mem_of_mem_take h)

/-- consecutive slices along a monotone sequence of bounds -/
theorem flatMap_slice (xs : List A) {b : ℕ → ℕ} (hb : Monotone b) (k : ℕ) :
    ((List.range k).flatMap fun i => slice xs (b i) (b (i + 1))) = slice xs (b 0) (b k) := by
  induction k with
  | zero => simp [slice]
  | succ k ih =>
    rw [List.range_succ, List.flatMap_append, ih]
    simpa using slice_append xs (hb (Nat.zero_le k)) (hb (Nat.le_succ k))

/-- halve `[s, e)` until the split budget is spent or one item is left; each leaf starts from `init` -/
def treeJob (xs : List A) (init : V) : ℕ → ℕ → ℕ → Job A V
  | 0, s, e => .leaf (slice xs s e) init
  | splits + 1, s, e =>
    if e - s ≤ 1 then .leaf (slice xs s e) init
    else
      let mid := s + (e - s) / 2
      .fork (treeJob xs init splits s mid) (treeJob xs init splits mid e)

theorem work_treeJob (xs : List A) (init : V) (splits : ℕ) :
    ∀ s e, s ≤ e → work (treeJob xs init splits s e) = slice xs s e := by
  induction splits with
  | zero => intro s e _; rfl
  | succ splits ih =>
    intro s e hse
    by_cases hleaf : e - s ≤ 1
    · simp [treeJob, hleaf, work]
    · simp only [treeJob, hleaf, if_false, work]
      rw [ih _ _ (by omega), ih _ _ (by omega), slice_append xs (by omega) (by omega)]

/-- if combining the values of two lists gives the value of their concatenation, the shape of the tree does not matter -/
theorem eval_treeJob (xs : List A) (init : V)
    (hom : ∀ l r, g (evalLeaf f l init) (evalLeaf f r init) = evalLeaf f (l ++ r) init) (splits : ℕ) :
    ∀ s e, s ≤ e → eval f g (treeJob xs init splits s e) = evalLeaf f (slice xs s e) init := by
  induction splits with
  | zero => intro s e _; rfl
  | succ splits ih =>
    intro s e hse
    by_cases hleaf : e - s ≤ 1
    · simp [treeJob, hleaf, eval]
    · simp only [treeJob, hleaf, if_false, eval]
      rw [ih _ _ (by omega), ih _ _ (by omega), hom, slice_append xs (by omega) (by omega)]

end YouPipe.ForkJoin
