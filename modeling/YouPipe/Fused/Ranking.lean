/-
Which failure a fallible run reports (`builder/typed/fused.rs`). Inside one tree the internal nodes of `par_tree_rec` rank the
failures of their two sides; across the chunks of a dispatch `ErasedFailure::record` ranks the reports of the chunk jobs, in
the order in which they arrive; `try_collect` hands the surviving failure to its caller, as an `Err` or as a resumed panic.
A chain that may filter runs on `par_filter_try_rec`, whose joins resume every panic.

A panic reaches a node as a captured payload, as a live unwind, or as an error value that a deeper node has made of a
captured payload. The match of `par_tree_rec` ranks the first two above an op failure; the third it ranks as one more error
value, so that an op failure on the A side hides it.

Results:
- `panic_outranks_iff`: for every tree and every run, an executed panic is what the caller sees if and only if no item
  panicked or the panic `reaches` the root (of some chunk's tree); the error of the leftmost failing leaf is returned whenever
  no executed item panics; `record` keeps a panic over an op failure for every order of the reports.
- `panic_hidden_by_error`: four items, the first an error and the third a panic: the run returns the `Err`.
-/
import Mathlib.Tactic
import YouPipe.Fused.Collect
import YouPipe.Fused.Tree

namespace YouPipe.Fused

variable {R E P : Type}

/-! ## Model -/

/-- `ErasedFailure`; the box of an op failure holds the run's error type -/
inductive ErasedFailure (E P : Type) where
  | op (e : E)
  | panic (p : P)
deriving DecidableEq, Repr

/-- `into_erased` of a `TryFailure` -/
def Failure.intoErased : Failure E P → ErasedFailure E P
  | .panic p => .panic p
  | .error e => .op e

/-- `ErasedFailure::record`: the first failure stays, except that a panic displaces an op failure -/
def record : Option (ErasedFailure E P) → ErasedFailure E P → Option (ErasedFailure E P)
  | none, f => some f
  | some (.op _), .panic p => some (.panic p)
  | some f, _ => some f

/-- the shared state of a dispatch: the failure slot, the chunks that have succeeded, the buffers -/
structure Dispatch (R E P : Type) where
  slot : Option (ErasedFailure E P)
  succeeded : List Chunk
  mem : Mem R

/-- `run_chunk` of the try strategy; a chunk without split budget is the `run_sequential` of the driver -/
def runChunk (op : ℕ → Outcome R E P) (stolen : ℕ → ℕ → Bool) (c : Chunk) (m : Mem R) : Call E P × Mem R :=
  parTreeRec (parIndexTryLeaf op) stolen c.splits c.start c.stop m

/-- `ChunkJob::execute`, and the driver's own chunk: the result is caught and reported -/
def execute (op : ℕ → Outcome R E P) (stolen : ℕ → ℕ → Bool) (d : Dispatch R E P) (c : Chunk) : Dispatch R E P :=
  match runChunk op stolen c d.mem with
  | (.ok (.ok ()), m) => ⟨d.slot, d.succeeded ++ [c], m⟩
  | (.ok (.error f), m) => ⟨record d.slot f.intoErased, d.succeeded, m⟩
  | (.error p, m) => ⟨record d.slot (.panic p), d.succeeded, m⟩

/-- `hybrid_dispatch` of the try strategy, when the chunks report in the order `order` -/
def hybridDispatch (op : ℕ → Outcome R E P) (stolen : ℕ → ℕ → Bool) (layout : Layout) (order : List Chunk) (m : Mem R) :
    Except P (Except (ErasedFailure E P) Unit) × Mem R :=
  match layout with
  | .single c =>
    match runChunk op stolen c m with
    | (.ok r, m) => (.ok (r.mapError Failure.intoErased), m)
    | (.error p, m) => (.error p, m)
  | .chunks _ _ _ =>
    let d := order.foldl (execute op stolen) ⟨none, [], m⟩
    match d.slot with
    | none => (.ok (.ok ()), d.mem)
    | some f => (.ok (.error f), d.succeeded.foldl (fun m c => m.dropRange (c.stop - c.start) c.start) d.mem)

/-- how `try_collect` ends: an unwind, an `Err`, or the outputs (`none`: a slot that was not init) -/
abbrev TryEnd (R E P : Type) := Except P (Except E (Option (List R)))

/-- `par_index_try_collect` after its dispatch -/
def parIndexTryCollect (op : ℕ → Outcome R E P) (stolen : ℕ → ℕ → Bool) (layout : Layout) (order : List Chunk) (n : ℕ) :
    TryEnd R E P :=
  match hybridDispatch op stolen layout order Mem.fresh with
  | (.ok (.ok ()), m) => .ok (.ok (intoVec m n))
  | (.ok (.error (.op e)), _) => .ok (.error e)
  | (.ok (.error (.panic p)), _) => .error p
  | (.error p, _) => .error p

/-- `filter_try_leaf` over `n` items from `s` on, and the serial loop; `none` is a filtered item -/
def filterTryLeaf (op : ℕ → Outcome (Option R) E P) : ℕ → ℕ → Except P (Except E (List R))
  | 0, _ => .ok (.ok [])
  | n + 1, s => match op s with
    | .ok o => (filterTryLeaf op n (s + 1)).map fun r => r.map fun out => o.toList ++ out
    | .err e => .ok (.error e)
    | .panics p => .error p

/-- `join_on`: a panic of either side is resumed, that of A first, whether B was stolen or not -/
def joinOn {A B : Type} : Except P A → Except P B → Except P (A × B)
  | .error p, _ => .error p
  | .ok _, .error p => .error p
  | .ok a, .ok b => .ok (a, b)

/-- the match of a `par_filter_try_rec` node -/
def concatTry : Except E (List R) × Except E (List R) → Except E (List R)
  | (.ok l, .ok r) => .ok (l ++ r)
  | (.error e, _) => .error e
  | (.ok _, .error e) => .error e

def parFilterTryRec (op : ℕ → Outcome (Option R) E P) : ℕ → ℕ → ℕ → Except P (Except E (List R))
  | 0, s, e => filterTryLeaf op (e - s) s
  | splits + 1, s, e =>
    if e - s ≤ 1 then filterTryLeaf op (e - s) s
    else
      let mid := s + (e - s) / 2
      (joinOn (parFilterTryRec op splits s mid) (parFilterTryRec op splits mid e)).map concatTry

/-- a fallible chain on the items of a run, its panics included: one that cannot filter, or one that may -/
inductive TryOps (R E P : Type) where
  | pure (op : ℕ → Outcome R E P)
  | filtering (op : ℕ → Outcome (Option R) E P)

/-- what the chain does on item `i`, seen as a filtering op -/
def TryOps.tryApply : TryOps R E P → ℕ → Outcome (Option R) E P
  | .pure op, i => match op i with
    | .ok r => .ok (some r)
    | .err e => .err e
    | .panics p => .panics p
  | .filtering op, i => op i

/-- the layout of the hybrid dispatcher for this run -/
def Exec.layout (ex : Exec) (n : ℕ) (plan : SplitPlan) : Layout :=
  hybridLayout ex.onPool ex.knobs.onpool n plan ex.numThreads

/-- the chunks of a dispatched run report in the order `order` -/
def ReportOrder (ex : Exec) (n : ℕ) (order : List Chunk) : Prop :=
  ∀ plan, terminalPlan ex.knobs n ex.workload ex.numThreads = .parallel plan → order.Perm (ex.layout n plan).all

/-- `TryPipe::try_collect` on `n` items -/
def tryCollect (ex : Exec) (chain : TryOps R E P) (stolen : ℕ → ℕ → Bool) (order : List Chunk) (n : ℕ) : TryEnd R E P :=
  if n = 0 then .ok (.ok (some []))
  else
    match terminalPlan ex.knobs n ex.workload ex.numThreads with
    | .serial => (filterTryLeaf chain.tryApply n 0).map fun r => r.map some
    | .parallel plan => match chain with
      | .filtering op => (parFilterTryRec op plan.depth 0 n).map fun r => r.map some
      | .pure op => parIndexTryCollect op stolen (ex.layout n plan) order n

/-! ## Executed items -/

/-- the leaves of the tree over `[s, e)`, from left to right -/
def leaves : ℕ → ℕ → ℕ → List (ℕ × ℕ)
  | 0, s, e => [(s, e)]
  | splits + 1, s, e =>
    if e - s ≤ 1 then [(s, e)]
    else leaves splits s (s + (e - s) / 2) ++ leaves splits (s + (e - s) / 2) e

/-- the op was called on `i` in the leaf over `[s, e)`: every item of the leaf before it came back `Ok` -/
def LeafExecuted (op : ℕ → Outcome R E P) (s e i : ℕ) : Prop := s ≤ i ∧ i < e ∧ ∀ j, s ≤ j → j < i → ∃ r, op j = .ok r

/-- the op was called on `i` in the tree over `[s, e)`; both sides of every join run -/
def Executed (op : ℕ → Outcome R E P) (splits s e i : ℕ) : Prop := ∃ l ∈ leaves splits s e, LeafExecuted op l.1 l.2 i

/-- some executed item of the tree panics -/
def PanicExecuted (op : ℕ → Outcome R E P) (splits s e : ℕ) : Prop := ∃ i p, Executed op splits s e i ∧ op i = .panics p

/-- some executed item of the tree errs -/
def ErrExecuted (op : ℕ → Outcome R E P) (splits s e : ℕ) : Prop := ∃ i x, Executed op splits s e i ∧ op i = .err x

/-- `i` is the first failing item of `[s, e)`, the one its leftmost failing leaf stops at -/
def FirstFailing (op : ℕ → Outcome R E P) (s e i : ℕ) : Prop :=
  s ≤ i ∧ i < e ∧ (∀ r, op i ≠ .ok r) ∧ ∀ j, s ≤ j → j < i → ∃ r, op j = .ok r

/-- the failure a call produced is a panic, returned or unwound -/
def Panicked : Call E P → Prop
  | .error _ => True
  | .ok (.error (.panic _)) => True
  | _ => False

/-- what the call's result owes to the items of the tree -/
structure Ranked (op : ℕ → Outcome R E P) (splits s e : ℕ) (c : Call E P) : Prop where
  panic : PanicExecuted op splits s e → Panicked c
  error : ¬ PanicExecuted op splits s e → ErrExecuted op splits s e →
    ∃ i x, FirstFailing op s e i ∧ op i = .err x ∧ c = .ok (.error (.error x))

/-- the condition, on the outcomes and the schedule: the first failing item panics, or at a join with that item on the A side
a panic leaves the B side as a live unwind -/
def reaches (op : ℕ → Outcome R E P) (stolen : ℕ → ℕ → Bool) : ℕ → ℕ → ℕ → Bool
  | 0, s, e => leafPanics op (e - s) s
  | splits + 1, s, e =>
    if e - s ≤ 1 then leafPanics op (e - s) s
    else
      let mid := s + (e - s) / 2
      if fails op (mid - s) s then reaches op stolen splits s mid || escapes op stolen splits mid e
      else reaches op stolen splits mid e

/-- the trees of a run: the one of the serial loop or of a filtering chain, or those of the dispatched chunks -/
def runTrees (ex : Exec) (chain : TryOps R E P) (n : ℕ) : List Chunk :=
  match terminalPlan ex.knobs n ex.workload ex.numThreads with
  | .serial => [⟨0, n, 0⟩]
  | .parallel plan => match chain with
    | .filtering _ => [⟨0, n, plan.depth⟩]
    | .pure _ => (ex.layout n plan).all

/-- some executed item of the run panics -/
def RunPanicExecuted (ex : Exec) (chain : TryOps R E P) (n : ℕ) : Prop :=
  ∃ c ∈ runTrees ex chain n, PanicExecuted chain.tryApply c.splits c.start c.stop

/-- the run takes a path that keeps the panic: the serial loop, the tree of a filtering chain, or a dispatch in which the
panic `reaches` the root of some chunk's tree -/
def RunReaches (ex : Exec) (chain : TryOps R E P) (stolen : ℕ → ℕ → Bool) (n : ℕ) : Prop :=
  match terminalPlan ex.knobs n ex.workload ex.numThreads, chain with
  | .parallel plan, .pure op => ∃ c ∈ (ex.layout n plan).all, reaches op stolen c.splits c.start c.stop = true
  | _, _ => True

variable {op : ℕ → Outcome R E P} {stolen : ℕ → ℕ → Bool} {splits s e n i : ℕ} {a b c : Call E P}

/-! ## The leaf -/

/-- how a leaf over `n` items from `s` on ends -/
def leafEnd (op : ℕ → Outcome R E P) : ℕ → ℕ → Call E P
  | 0, _ => .ok (.ok ())
  | n + 1, s => match op s with
    | .ok _ => leafEnd op n (s + 1)
    | .err x => .ok (.error (.error x))
    | .panics p => .error p

theorem leafLoop_end (op : ℕ → Outcome R E P) (s n rest : ℕ) : ∀ written (m : Mem R),
    (leafLoop op s n rest written m).1 = leafEnd op rest (s + written) := by
  induction rest with
  | zero => intro written m; rfl
  | succ rest ih =>
    intro written m
    simp only [leafLoop, leafEnd]
    cases op (s + written) with
    | ok r => exact ih (written + 1) _
    | err x => rfl
    | panics p => rfl

theorem leafExecuted_succ {r : R} (hop : op s = .ok r) : LeafExecuted op s e i ∧ i ≠ s ↔ LeafExecuted op (s + 1) e i := by
  constructor
  · rintro ⟨⟨h1, h2, h3⟩, hne⟩
    exact ⟨by omega, h2, fun j hj hji => h3 j (by omega) hji⟩
  · rintro ⟨h1, h2, h3⟩
    refine ⟨⟨by omega, h2, fun j hj hji => ?_⟩, by omega⟩
    rcases Nat.eq_or_lt_of_le hj with rfl | hj
    · exact ⟨r, hop⟩
    · exact h3 j hj hji

/-- an item the leaf stops at is the only executed one at or after it -/
theorem leafExecuted_stop (hop : ∀ r, op s ≠ .ok r) (h : LeafExecuted op s e i) : i = s := by
  by_contra hne
  obtain ⟨r, hr⟩ := h.2.2 s (le_refl s) (lt_of_le_of_ne h.1 (Ne.symm hne))
  exact hop r hr

theorem leafPanics_iff (op : ℕ → Outcome R E P) (n s : ℕ) :
    leafPanics op n s = true ↔ ∃ i p, LeafExecuted op s (s + n) i ∧ op i = .panics p := by
  induction n generalizing s with
  | zero =>
    constructor
    · intro h; cases h
    · rintro ⟨i, p, ⟨h1, h2, -⟩, -⟩
      omega
  | succ n ih =>
    simp only [leafPanics]
    cases hop : op s with
    | ok r =>
      rw [show s + (n + 1) = s + 1 + n by omega]
      constructor
      · intro h
        obtain ⟨i, p, hi, hp⟩ := (ih (s + 1)).1 h
        exact ⟨i, p, ((leafExecuted_succ hop).2 hi).1, hp⟩
      · rintro ⟨i, p, hi, hp⟩
        have hne : i ≠ s := by rintro rfl; rw [hop] at hp; cases hp
        exact (ih (s + 1)).2 ⟨i, p, (leafExecuted_succ hop).1 ⟨hi, hne⟩, hp⟩
    | err x =>
      constructor
      · intro h; cases h
      · rintro ⟨i, p, hi, hp⟩
        rw [leafExecuted_stop (by simp [hop]) hi, hop] at hp
        cases hp
    | panics p =>
      constructor
      · intro _
        exact ⟨s, p, ⟨le_refl s, by omega, fun j h1 h2 => by omega⟩, hop⟩
      · intro _; rfl

/-- a range does not fail exactly when every item of it comes back `Ok` -/
theorem fails_eq_false_iff (op : ℕ → Outcome R E P) (n s : ℕ) :
    fails op n s = false ↔ ∀ j, s ≤ j → j < s + n → ∃ r, op j = .ok r := by
  induction n generalizing s with
  | zero => exact iff_of_true rfl fun j h1 h2 => by omega
  | succ n ih =>
    simp only [fails]
    cases hop : op s with
    | ok r =>
      refine (ih (s + 1)).trans ⟨fun h j h1 h2 => ?_, fun h j h1 h2 => h j (by omega) (by omega)⟩
      rcases Nat.eq_or_lt_of_le h1 with rfl | h1
      · exact ⟨r, hop⟩
      · exact h j h1 (by omega)
    | err x =>
      refine iff_of_false (by simp) fun h => ?_
      obtain ⟨r, hr⟩ := h s (le_refl s) (by omega)
      rw [hop] at hr
      cases hr
    | panics p =>
      refine iff_of_false (by simp) fun h => ?_
      obtain ⟨r, hr⟩ := h s (le_refl s) (by omega)
      rw [hop] at hr
      cases hr

/-- a leaf completes, unwinds at its first failing item, or returns that item's error -/
theorem leafEnd_cases (op : ℕ → Outcome R E P) (n s : ℕ) :
    (fails op n s = false ∧ leafPanics op n s = false ∧ leafEnd op n s = .ok (.ok ())) ∨
      (∃ p, fails op n s = true ∧ leafPanics op n s = true ∧ leafEnd op n s = .error p) ∨
      ∃ i x, fails op n s = true ∧ leafPanics op n s = false ∧ FirstFailing op s (s + n) i ∧ op i = .err x ∧
        leafEnd op n s = .ok (.error (.error x)) := by
  induction n generalizing s with
  | zero => exact Or.inl ⟨rfl, rfl, rfl⟩
  | succ n ih =>
    simp only [fails, leafPanics, leafEnd]
    cases hop : op s with
    | ok r =>
      rw [show s + (n + 1) = s + 1 + n by omega]
      rcases ih (s + 1) with h | h | ⟨i, x, h1, h2, ⟨hlo, hhi, hfail, hbefore⟩, hx, hend⟩
      · exact Or.inl h
      · exact Or.inr (Or.inl h)
      · refine Or.inr (Or.inr ⟨i, x, h1, h2, ⟨by omega, hhi, hfail, fun j hj hji => ?_⟩, hx, hend⟩)
        rcases Nat.eq_or_lt_of_le hj with rfl | hj
        · exact ⟨r, hop⟩
        · exact hbefore j hj hji
    | err x =>
      refine Or.inr (Or.inr ⟨s, x, rfl, rfl, ⟨le_refl s, by omega, by simp [hop], fun j h1 h2 => by omega⟩, hop, rfl⟩)
    | panics p => exact Or.inr (Or.inl ⟨p, rfl, rfl, rfl⟩)

/-! ## A node -/

/-- how a node ends, given how its sides ended -/
def joinEnd (st : Bool) (a b : Call E P) : Call E P :=
  match joinOnCaptured st a b with
  | .error p => .error p
  | .ok (l, r) => if succeeded l && succeeded r then .ok (.ok ()) else .ok (nodeFailure l r)

theorem joinNode_end (st : Bool) (s mid e : ℕ) (a b : Call E P) (m : Mem R) :
    (joinNode st s mid e a b m).1 = joinEnd st a b := by
  unfold joinNode joinEnd
  rcases joinOnCaptured st a b with p | ⟨l, r⟩
  · rfl
  · dsimp only
    split_ifs <;> rfl

/-- **The ranking of one node**: with a failed A, a panic is what A made of its own failure or what B unwinds with; a panic
that B returns as an error value is not looked at -/
theorem joinEnd_panicked (st : Bool) (a b : Call E P) :
    Panicked (joinEnd st a b) ↔ if succeeded a then Panicked b else Panicked a ∨ b.isOk = false := by
  rcases a with p | ((x | p) | ⟨⟩) <;> rcases b with q | ((y | q) | ⟨⟩) <;> cases st <;>
    simp [joinEnd, joinOnCaptured, nodeFailure, succeeded, Panicked, Except.isOk, Except.toBool]

/-- an op failure leaves a node as it came: from A, or from B when A completed -/
theorem joinEnd_error {x : E} (st : Bool) (h : a = .ok (.error (.error x)) ∧ b.isOk = true ∨
    succeeded a = true ∧ b = .ok (.error (.error x))) : joinEnd st a b = .ok (.error (.error x)) := by
  rcases h with ⟨rfl, hb⟩ | ⟨ha, rfl⟩
  · rcases b with q | r
    · cases hb
    · cases st <;> simp [joinEnd, joinOnCaptured, nodeFailure, succeeded, Except.isOk, Except.toBool]
  · rw [succeeded_iff.1 ha]
    cases st <;> simp [joinEnd, joinOnCaptured, nodeFailure, succeeded, Except.isOk, Except.toBool]

/-! ## The tree -/

/-- how a call of the tree ends, in terms of the outcomes and the schedule -/
structure Ends (op : ℕ → Outcome R E P) (stolen : ℕ → ℕ → Bool) (splits s e : ℕ) (c : Call E P) : Prop where
  success : succeeded c = !fails op (e - s) s
  returns : c.isOk = !escapes op stolen splits s e
  panicked : Panicked c ↔ reaches op stolen splits s e = true
  error : fails op (e - s) s = true → reaches op stolen splits s e = false →
    ∃ i x, FirstFailing op s e i ∧ op i = .err x ∧ c = .ok (.error (.error x))

theorem leaf_ends (op : ℕ → Outcome R E P) (stolen : ℕ → ℕ → Bool) (hsplit : splits = 0 ∨ e - s ≤ 1) :
    Ends op stolen splits s e (leafEnd op (e - s) s) := by
  have hesc : escapes op stolen splits s e = leafPanics op (e - s) s := by
    cases splits with
    | zero => rfl
    | succ k => simp only [escapes, if_pos (hsplit.resolve_left (Nat.succ_ne_zero k))]
  have hreach : reaches op stolen splits s e = leafPanics op (e - s) s := by
    cases splits with
    | zero => rfl
    | succ k => simp only [reaches, if_pos (hsplit.resolve_left (Nat.succ_ne_zero k))]
  rcases leafEnd_cases op (e - s) s with ⟨h1, h2, h3⟩ | ⟨p, h1, h2, h3⟩ | ⟨i, x, h1, h2, hi, hx, h3⟩
  · refine ⟨by rw [h1, h3]; rfl, by rw [hesc, h2, h3]; rfl, ?_, fun h => ?_⟩
    · rw [hreach, h2, h3]
      simp [Panicked]
    · rw [h1] at h
      cases h
  · refine ⟨by rw [h1, h3]; rfl, by rw [hesc, h2, h3]; rfl, ?_, fun _ h => ?_⟩
    · rw [hreach, h2, h3]
      simp [Panicked]
    · rw [hreach, h2] at h
      cases h
  · refine ⟨by rw [h1, h3]; rfl, by rw [hesc, h2, h3]; rfl, ?_, fun _ _ => ⟨i, x, ?_, hx, h3⟩⟩
    · rw [hreach, h2, h3]
      simp [Panicked]
    · obtain ⟨hlo, hhi, hrest⟩ := hi
      exact ⟨hlo, by omega, hrest⟩

/-- **How the tree ends**, by induction on the split budget; the buffers do not matter -/
theorem tree_ends (op : ℕ → Outcome R E P) (stolen : ℕ → ℕ → Bool) (splits : ℕ) : ∀ s e (m : Mem R),
    Ends op stolen splits s e (parTreeRec (parIndexTryLeaf op) stolen splits s e m).1 := by
  induction splits with
  | zero =>
    intro s e m
    simp only [parTreeRec, parIndexTryLeaf, leafLoop_end, Nat.add_zero]
    exact leaf_ends op stolen (Or.inl rfl)
  | succ splits ih =>
    intro s e m
    by_cases hleaf : e - s ≤ 1
    · simp only [parTreeRec, if_pos hleaf, parIndexTryLeaf, leafLoop_end, Nat.add_zero]
      exact leaf_ends op stolen (Or.inr hleaf)
    · obtain ⟨mid, hmid⟩ : ∃ mid, mid = s + (e - s) / 2 := ⟨_, rfl⟩
      have hlo : s < mid := by omega
      have hhi : mid ≤ e := by omega
      have hA := ih s mid m
      obtain ⟨ra, hra⟩ : ∃ ra, ra = parTreeRec (parIndexTryLeaf op) stolen splits s mid m := ⟨_, rfl⟩
      rw [← hra] at hA
      have hB := ih mid e ra.2
      obtain ⟨rb, hrb⟩ : ∃ rb, rb = parTreeRec (parIndexTryLeaf op) stolen splits mid e ra.2 := ⟨_, rfl⟩
      rw [← hrb] at hB
      have hnode : parTreeRec (parIndexTryLeaf op) stolen (splits + 1) s e m =
          joinNode (stolen s e) s mid e ra.1 rb.1 rb.2 := by
        simp only [parTreeRec, hleaf, if_false, ← hmid, ← hra, ← hrb]
      have hfails : fails op (e - s) s = (fails op (mid - s) s || fails op (e - mid) mid) := by
        rw [show e - s = mid - s + (e - mid) by omega, fails_append, show s + (mid - s) = mid by omega]
      have hreach : reaches op stolen (splits + 1) s e = if fails op (mid - s) s then
          reaches op stolen splits s mid || escapes op stolen splits mid e else reaches op stolen splits mid e := by
        simp only [reaches, hleaf, if_false, ← hmid]
      rw [hnode]
      refine ⟨?_, ?_, ?_, fun hf hr => ?_⟩
      · rw [joinNode_succeeded, hA.success, hB.success, hfails, Bool.not_or]
      · rw [joinNode_isOk, hA.returns, hB.returns]
        simp only [escapes, hleaf, if_false, ← hmid, Bool.not_not]
      · rw [joinNode_end, joinEnd_panicked, hreach, hA.success, hB.returns, hA.panicked, hB.panicked]
        cases fails op (mid - s) s <;> simp
      · rw [joinNode_end]
        rw [hreach] at hr
        cases hfA : fails op (mid - s) s with
        | true =>
          rw [hfA, if_pos rfl, Bool.or_eq_false_iff] at hr
          obtain ⟨i, x, ⟨h1, h2, h3⟩, hx, hc⟩ := hA.error hfA hr.1
          refine ⟨i, x, ⟨h1, by omega, h3⟩, hx, joinEnd_error _ (Or.inl ⟨hc, ?_⟩)⟩
          rw [hB.returns, hr.2]
          rfl
        | false =>
          rw [hfA] at hr
          rw [hfails, hfA, Bool.false_or] at hf
          obtain ⟨i, x, ⟨h1, h2, h3, h4⟩, hx, hc⟩ := hB.error hf hr
          refine ⟨i, x, ⟨by omega, h2, h3, fun j hj hji => ?_⟩, hx, joinEnd_error _ (Or.inr ⟨?_, hc⟩)⟩
          · -- a completed A has no failing item
            rcases Nat.lt_or_ge j mid with hjm | hjm
            · exact (fails_eq_false_iff op (mid - s) s).1 hfA j hj (by omega)
            · exact h4 j hjm hji
          · rw [hA.success, hfA]
            rfl

/-! ## Executed panics -/

theorem leaves_node (hleaf : ¬ e - s ≤ 1) : leaves (splits + 1) s e =
    leaves splits s (s + (e - s) / 2) ++ leaves splits (s + (e - s) / 2) e := by
  simp only [leaves, if_neg hleaf]

theorem leaves_leaf (hleaf : e - s ≤ 1) : leaves splits s e = [(s, e)] := by
  cases splits with
  | zero => rfl
  | succ k => simp only [leaves, if_pos hleaf]

theorem leaves_bounds (splits : ℕ) : ∀ s e, ∀ l ∈ leaves splits s e, s ≤ l.1 ∧ l.2 ≤ e := by
  induction splits with
  | zero =>
    intro s e l hl
    rw [List.mem_singleton.1 hl]
    exact ⟨le_refl s, le_refl e⟩
  | succ splits ih =>
    intro s e l hl
    by_cases hleaf : e - s ≤ 1
    · rw [leaves_leaf hleaf] at hl
      rw [List.mem_singleton.1 hl]
      exact ⟨le_refl s, le_refl e⟩
    · rw [leaves_node hleaf] at hl
      rcases List.mem_append.1 hl with hl | hl
      · obtain ⟨h1, h2⟩ := ih _ _ l hl
        exact ⟨h1, by omega⟩
      · obtain ⟨h1, h2⟩ := ih _ _ l hl
        exact ⟨by omega, h2⟩

theorem Executed.bounds (h : Executed op splits s e i) : s ≤ i ∧ i < e := by
  obtain ⟨l, hl, h1, h2, -⟩ := h
  obtain ⟨h3, h4⟩ := leaves_bounds splits s e l hl
  exact ⟨h3.trans h1, h2.trans_le h4⟩

theorem panicExecuted_node (hleaf : ¬ e - s ≤ 1) : PanicExecuted op (splits + 1) s e ↔
    PanicExecuted op splits s (s + (e - s) / 2) ∨ PanicExecuted op splits (s + (e - s) / 2) e := by
  unfold PanicExecuted Executed
  rw [leaves_node hleaf]
  constructor
  · rintro ⟨i, p, ⟨l, hl, hi⟩, hp⟩
    rcases List.mem_append.1 hl with hl | hl
    · exact Or.inl ⟨i, p, ⟨l, hl, hi⟩, hp⟩
    · exact Or.inr ⟨i, p, ⟨l, hl, hi⟩, hp⟩
  · rintro (⟨i, p, ⟨l, hl, hi⟩, hp⟩ | ⟨i, p, ⟨l, hl, hi⟩, hp⟩)
    · exact ⟨i, p, ⟨l, List.mem_append_left _ hl, hi⟩, hp⟩
    · exact ⟨i, p, ⟨l, List.mem_append_right _ hl, hi⟩, hp⟩

theorem panicExecuted_leaf (hleaf : splits = 0 ∨ e - s ≤ 1) :
    PanicExecuted op splits s e ↔ leafPanics op (e - s) s = true := by
  have hl : leaves splits s e = [(s, e)] := by
    rcases hleaf with rfl | h
    · rfl
    · exact leaves_leaf h
  unfold PanicExecuted Executed
  rw [hl, leafPanics_iff]
  simp only [List.mem_singleton, exists_eq_left]
  constructor
  · rintro ⟨i, p, ⟨h1, h2, h3⟩, hp⟩
    exact ⟨i, p, ⟨h1, by omega, h3⟩, hp⟩
  · rintro ⟨i, p, ⟨h1, h2, h3⟩, hp⟩
    exact ⟨i, p, ⟨h1, by omega, h3⟩, hp⟩

theorem panicExecuted_of_escapes (op : ℕ → Outcome R E P) (stolen : ℕ → ℕ → Bool) (splits : ℕ) : ∀ s e,
    escapes op stolen splits s e = true → PanicExecuted op splits s e := by
  induction splits with
  | zero => intro s e h; exact (panicExecuted_leaf (Or.inl rfl)).2 h
  | succ splits ih =>
    intro s e h
    by_cases hleaf : e - s ≤ 1
    · rw [escapes, if_pos hleaf] at h
      exact (panicExecuted_leaf (Or.inr hleaf)).2 h
    · simp only [escapes, if_neg hleaf, Bool.and_eq_true] at h
      exact (panicExecuted_node hleaf).2 (Or.inr (ih _ _ h.2))

theorem panicExecuted_of_reaches (op : ℕ → Outcome R E P) (stolen : ℕ → ℕ → Bool) (splits : ℕ) : ∀ s e,
    reaches op stolen splits s e = true → PanicExecuted op splits s e := by
  induction splits with
  | zero => intro s e h; exact (panicExecuted_leaf (Or.inl rfl)).2 h
  | succ splits ih =>
    intro s e h
    by_cases hleaf : e - s ≤ 1
    · rw [reaches, if_pos hleaf] at h
      exact (panicExecuted_leaf (Or.inr hleaf)).2 h
    · simp only [reaches, if_neg hleaf] at h
      rw [panicExecuted_node hleaf]
      split_ifs at h
      · rw [Bool.or_eq_true] at h
        rcases h with h | h
        · exact Or.inl (ih _ _ h)
        · exact Or.inr (panicExecuted_of_escapes op stolen splits _ _ h)
      · exact Or.inr (ih _ _ h)

/-- an executed item that does not come back `Ok` makes the range fail -/
theorem fails_of_executed (h : Executed op splits s e i) (hi : ∀ r, op i ≠ .ok r) : fails op (e - s) s = true := by
  obtain ⟨h1, h2⟩ := h.bounds
  by_contra hno
  obtain ⟨r, hr⟩ := (fails_eq_false_iff op (e - s) s).1 (by simpa using hno) i h1 (by omega)
  exact hi r hr

theorem fails_of_panicExecuted (h : PanicExecuted op splits s e) : fails op (e - s) s = true := by
  obtain ⟨i, p, hi, hp⟩ := h
  exact fails_of_executed hi (by simp [hp])

theorem ranked_iff (h : Ends op stolen splits s e c) :
    Ranked op splits s e c ↔ ¬ PanicExecuted op splits s e ∨ reaches op stolen splits s e = true := by
  constructor
  · intro hr
    by_cases hp : PanicExecuted op splits s e
    · exact Or.inr (h.panicked.1 (hr.panic hp))
    · exact Or.inl hp
  · intro hc
    constructor
    · intro hp
      exact h.panicked.2 (hc.resolve_left (not_not_intro hp))
    · rintro hno ⟨i, x, hi, hx⟩
      have hreach : reaches op stolen splits s e = false := by
        by_contra hr
        exact hno (panicExecuted_of_reaches op stolen splits s e (by simpa using hr))
      exact h.error (fails_of_executed hi (by simp [hx])) hreach

/-! ## Chunk reports -/

def ErasedFailure.isPanic : ErasedFailure E P → Bool
  | .panic _ => true
  | .op _ => false

theorem foldl_record_panic (reports : List (ErasedFailure E P)) (p : P) :
    reports.foldl record (some (.panic p)) = some (.panic p) := by
  induction reports with
  | nil => rfl
  | cons f reports ih => exact ih

theorem foldl_record_op (reports : List (ErasedFailure E P)) (x : E) :
    reports.foldl record (some (.op x)) = (reports.find? ErasedFailure.isPanic).or (some (.op x)) := by
  induction reports with
  | nil => rfl
  | cons f reports ih =>
    cases f with
    | op y => exact ih
    | panic p => exact foldl_record_panic reports p

/-- **The failure slot, for every order of the reports**: the first panic reported if there is one, else the first failure -/
theorem foldl_record (reports : List (ErasedFailure E P)) :
    reports.foldl record none = (reports.find? ErasedFailure.isPanic).or reports.head? := by
  cases reports with
  | nil => rfl
  | cons f reports =>
    cases f with
    | op x => exact foldl_record_op reports x
    | panic p => exact foldl_record_panic reports p

/-- what a chunk reports of how it ended -/
def report : Call E P → Option (ErasedFailure E P)
  | .ok (.ok ()) => none
  | .ok (.error f) => some f.intoErased
  | .error p => some (.panic p)

theorem execute_slot (op : ℕ → Outcome R E P) (stolen : ℕ → ℕ → Bool) (d : Dispatch R E P) (c : Chunk) :
    (execute op stolen d c).slot = (report (runChunk op stolen c d.mem).1).toList.foldl record d.slot := by
  unfold execute
  rcases runChunk op stolen c d.mem with ⟨p | (f | ⟨⟩), m⟩ <;> rfl

theorem report_panic (c : Call E P) : (∃ f ∈ report c, f.isPanic = true) ↔ Panicked c := by
  rcases c with p | ((x | p) | ⟨⟩) <;> simp [report, Panicked, Failure.intoErased, ErasedFailure.isPanic]

theorem report_none (c : Call E P) : report c = none ↔ succeeded c = true := by
  rcases c with p | (f | ⟨⟩) <;> simp [report, succeeded]

/-- the slot after the chunks of `order` have reported is that of some list of reports: empty exactly when no chunk fails, with
a panic exactly when the panic reaches the root of some chunk's tree -/
theorem execute_reports (op : ℕ → Outcome R E P) (stolen : ℕ → ℕ → Bool) (order : List Chunk) : ∀ d : Dispatch R E P,
    ∃ reports : List (ErasedFailure E P),
      (order.foldl (execute op stolen) d).slot = reports.foldl record d.slot ∧
      (reports = [] ↔ ∀ c ∈ order, fails op (c.stop - c.start) c.start = false) ∧
      ((∃ f ∈ reports, f.isPanic = true) ↔ ∃ c ∈ order, reaches op stolen c.splits c.start c.stop = true) := by
  induction order with
  | nil => intro d; exact ⟨[], rfl, by simp, by simp⟩
  | cons c order ih =>
    intro d
    obtain ⟨reports, hslot, hempty, hpanic⟩ := ih (execute op stolen d c)
    have hends := tree_ends op stolen c.splits c.start c.stop d.mem
    change Ends op stolen c.splits c.start c.stop (runChunk op stolen c d.mem).1 at hends
    refine ⟨(report (runChunk op stolen c d.mem).1).toList ++ reports, ?_, ?_, ?_⟩
    · rw [List.foldl_cons, hslot, execute_slot, List.foldl_append]
    · rw [List.append_eq_nil_iff, hempty, Option.toList_eq_nil_iff, report_none, hends.success]
      simp
    · simp only [List.mem_append, List.exists_mem_cons_iff, ← hpanic, ← hends.panicked, ← report_panic, Option.mem_toList,
        Option.mem_def, or_and_right, exists_or]

/-! ## Runs -/

/-- a run's dispatch ends in a panic exactly when the panic reaches the root of some chunk's tree, and in an op failure
exactly when some chunk fails and none of them ends in a panic -/
theorem index_end (op : ℕ → Outcome R E P) (stolen : ℕ → ℕ → Bool) (layout : Layout) {order : List Chunk}
    (hord : order.Perm layout.all) (n : ℕ) :
    ((∃ p, parIndexTryCollect op stolen layout order n = .error p) ↔
      ∃ c ∈ layout.all, reaches op stolen c.splits c.start c.stop = true) ∧
    ((∃ out, parIndexTryCollect op stolen layout order n = .ok (.ok out)) ↔
      ∀ c ∈ layout.all, fails op (c.stop - c.start) c.start = false) := by
  cases layout with
  | single c =>
    have hends := tree_ends op stolen c.splits c.start c.stop Mem.fresh
    change Ends op stolen c.splits c.start c.stop (runChunk op stolen c Mem.fresh).1 at hends
    have hsucc := hends.success
    have hpan := hends.panicked
    simp only [Layout.all, List.mem_singleton, exists_eq_left, forall_eq, ← hpan,
      ← Bool.not_eq_true', ← hsucc, parIndexTryCollect, hybridDispatch]
    rcases runChunk op stolen c Mem.fresh with ⟨p | ((x | p) | ⟨⟩), m⟩ <;>
      simp [Panicked, succeeded, Except.mapError, Failure.intoErased]
  | chunks driver injected reserve =>
    obtain ⟨reports, hslot, hempty, hpanic⟩ := execute_reports op stolen order ⟨none, [], Mem.fresh⟩
    rw [foldl_record] at hslot
    have hall : ∀ q : Chunk → Prop, (∀ c ∈ (Layout.chunks driver injected reserve).all, q c) ↔ ∀ c ∈ order, q c := by
      intro q
      simp only [hord.mem_iff]
    have hex : ∀ q : Chunk → Prop, (∃ c ∈ (Layout.chunks driver injected reserve).all, q c) ↔ ∃ c ∈ order, q c := by
      intro q
      simp only [hord.mem_iff]
    rw [hex, hall, ← hempty, ← hpanic]
    simp only [parIndexTryCollect, hybridDispatch, hslot]
    cases hfind : reports.find? ErasedFailure.isPanic with
    | some f =>
      have hp := List.find?_some hfind
      have hmem := List.mem_of_find?_eq_some hfind
      obtain ⟨p, rfl⟩ : ∃ p, f = .panic p := by
        cases f with
        | op x => cases hp
        | panic p => exact ⟨p, rfl⟩
      refine ⟨iff_of_true ⟨p, rfl⟩ ⟨_, hmem, rfl⟩, iff_of_false (by simp) ?_⟩
      exact List.ne_nil_of_mem hmem
    | none =>
      have hno : ∀ f ∈ reports, f.isPanic = false := by simpa using hfind
      have hnone : ¬ ∃ f ∈ reports, f.isPanic = true := by
        rintro ⟨f, hf, hp⟩
        rw [hno f hf] at hp
        cases hp
      cases reports with
      | nil => exact ⟨iff_of_false (by simp) hnone, iff_of_true ⟨_, rfl⟩ rfl⟩
      | cons f reports =>
        cases f with
        | op x => exact ⟨iff_of_false (by simp) hnone, iff_of_false (by simp) (List.cons_ne_nil _ _)⟩
        | panic p => exact absurd ⟨_, List.mem_cons_self, rfl⟩ hnone

theorem tryApply_ok (f : ℕ → Outcome R E P) (j : ℕ) :
    (∃ r, (TryOps.pure f).tryApply j = .ok r) ↔ ∃ r, f j = .ok r := by
  cases hj : f j <;> simp [TryOps.tryApply, hj]

theorem tryApply_panics (f : ℕ → Outcome R E P) (j : ℕ) (p : P) :
    (TryOps.pure f).tryApply j = .panics p ↔ f j = .panics p := by
  cases hj : f j <;> simp [TryOps.tryApply, hj]

theorem panicExecuted_pure (f : ℕ → Outcome R E P) (splits s e : ℕ) :
    PanicExecuted (TryOps.pure f).tryApply splits s e ↔ PanicExecuted f splits s e := by
  simp only [PanicExecuted, Executed, LeafExecuted, tryApply_ok, tryApply_panics]

theorem filterTryLeaf_end (f : ℕ → Outcome (Option R) E P) (n s : ℕ) :
    ((∃ p, filterTryLeaf f n s = .error p) ↔ leafPanics f n s = true) ∧
      ((∃ out, filterTryLeaf f n s = .ok (.ok out)) ↔ fails f n s = false) := by
  induction n generalizing s with
  | zero => simp [filterTryLeaf, leafPanics, fails]
  | succ n ih =>
    simp only [filterTryLeaf, leafPanics, fails]
    cases f s with
    | ok o =>
      obtain ⟨h1, h2⟩ := ih (s + 1)
      rw [← h1, ← h2]
      rcases filterTryLeaf f n (s + 1) with p | (x | out) <;> simp [Except.map]
    | err x => simp
    | panics p => simp

/-- the tree of a filtering chain ends in a panic exactly when an executed item panics -/
theorem parFilterTryRec_end (f : ℕ → Outcome (Option R) E P) (splits : ℕ) : ∀ s e,
    ((∃ p, parFilterTryRec f splits s e = .error p) ↔ PanicExecuted f splits s e) := by
  induction splits with
  | zero =>
    intro s e
    rw [panicExecuted_leaf (Or.inl rfl)]
    exact (filterTryLeaf_end f (e - s) s).1
  | succ splits ih =>
    intro s e
    by_cases hleaf : e - s ≤ 1
    · rw [panicExecuted_leaf (Or.inr hleaf), parFilterTryRec, if_pos hleaf]
      exact (filterTryLeaf_end f (e - s) s).1
    · rw [panicExecuted_node hleaf, ← ih, ← ih]
      simp only [parFilterTryRec, if_neg hleaf]
      rcases parFilterTryRec f splits s (s + (e - s) / 2) with p | a <;>
        rcases parFilterTryRec f splits (s + (e - s) / 2) e with q | b <;> simp [joinOn, Except.map]

/-- **A run ends in a panic** exactly when an executed item panics and the run keeps the panic -/
theorem tryCollect_error (ex : Exec) (chain : TryOps R E P) (stolen : ℕ → ℕ → Bool) {order : List Chunk} {n : ℕ}
    (hord : ReportOrder ex n order) :
    (∃ p, tryCollect ex chain stolen order n = .error p) ↔ n ≠ 0 ∧ RunPanicExecuted ex chain n ∧ RunReaches ex chain stolen n := by
  by_cases hn : n = 0
  · simp [tryCollect, hn]
  · simp only [tryCollect, if_neg hn, RunPanicExecuted, RunReaches, runTrees]
    cases hp : terminalPlan ex.knobs n ex.workload ex.numThreads with
    | serial =>
      have h := (filterTryLeaf_end chain.tryApply n 0).1
      simp only [List.mem_singleton, exists_eq_left, panicExecuted_leaf (Or.inl rfl), Nat.sub_zero, ← h]
      rcases filterTryLeaf chain.tryApply n 0 with p | r <;> simp [Except.map, hn]
    | parallel plan =>
      cases chain with
      | filtering f =>
        have h : (∃ p, parFilterTryRec f plan.depth 0 n = .error p) ↔
            PanicExecuted (TryOps.filtering f).tryApply plan.depth 0 n := parFilterTryRec_end f plan.depth 0 n
        simp only [List.mem_singleton, exists_eq_left, ← h]
        rcases parFilterTryRec f plan.depth 0 n with p | r <;> simp [Except.map, hn]
      | pure f =>
        dsimp only
        rw [(index_end f stolen _ (hord plan hp) n).1]
        simp only [panicExecuted_pure]
        constructor
        · rintro ⟨c, hc, hr⟩
          exact ⟨hn, ⟨c, hc, panicExecuted_of_reaches f stolen _ _ _ hr⟩, c, hc, hr⟩
        · rintro ⟨-, -, h⟩
          exact h

/-- a run in which an executed item panics does not complete -/
theorem tryCollect_ok (ex : Exec) (chain : TryOps R E P) (stolen : ℕ → ℕ → Bool) {order : List Chunk} {n : ℕ}
    (hord : ReportOrder ex n order) (hp : RunPanicExecuted ex chain n) (out : Option (List R)) : n ≠ 0 ∧ tryCollect ex chain stolen order n ≠ .ok (.ok out) := by
  obtain ⟨c, hc, hpe⟩ := hp
  by_cases hn : n = 0
  · -- without items the only tree is the empty serial loop
    subst hn
    rw [runTrees, show terminalPlan ex.knobs 0 ex.workload ex.numThreads = .serial from rfl, List.mem_singleton] at hc
    subst hc
    obtain ⟨i, p, hi, -⟩ := hpe
    exact absurd hi.bounds.2 (Nat.not_lt_zero i)
  · refine ⟨hn, fun hout => ?_⟩
    rw [tryCollect, if_neg hn] at hout
    rw [runTrees] at hc
    cases hplan : terminalPlan ex.knobs n ex.workload ex.numThreads with
    | serial =>
      rw [hplan, List.mem_singleton] at hc
      subst hc
      rw [panicExecuted_leaf (Or.inl rfl), Nat.sub_zero, ← (filterTryLeaf_end chain.tryApply n 0).1] at hpe
      obtain ⟨p, hp⟩ := hpe
      simp [hplan, hp, Except.map] at hout
    | parallel plan =>
      simp only [hplan] at hout hc
      cases chain with
      | filtering f =>
        rw [List.mem_singleton] at hc
        subst hc
        obtain ⟨p, hp⟩ := (parFilterTryRec_end f plan.depth 0 n).2 hpe
        simp [hp, Except.map] at hout
      | pure f =>
        have hok := (index_end f stolen _ (hord plan hplan) n).2.1 ⟨out, hout⟩ c hc
        rw [panicExecuted_pure] at hpe
        rw [fails_of_panicExecuted hpe] at hok
        cases hok

/-! ## Results -/

/-- **When a panic outranks an error.** A tree's failure is ranked as documented (a panic if an executed item panics, else the
error of the leftmost failing leaf) if and only if no executed item panics or the panic `reaches` the root. The failure slot
holds the first panic reported, else the first failure, for every order of reports. A run in which an executed item panicked
does not return an ordinary `Err` if and only if it takes a path that keeps the panic. -/
theorem panic_outranks_iff :
    (∀ (op : ℕ → Outcome R E P) (stolen : ℕ → ℕ → Bool) (splits s e : ℕ) (m : Mem R),
      Ranked op splits s e (parTreeRec (parIndexTryLeaf op) stolen splits s e m).1 ↔
        ¬ PanicExecuted op splits s e ∨ reaches op stolen splits s e = true) ∧
    (∀ reports : List (ErasedFailure E P),
      reports.foldl record none = (reports.find? ErasedFailure.isPanic).or reports.head?) ∧
    ∀ (ex : Exec) (chain : TryOps R E P) (stolen : ℕ → ℕ → Bool) (order : List Chunk) (n : ℕ), ReportOrder ex n order →
      ((RunPanicExecuted ex chain n → ∀ x, tryCollect ex chain stolen order n ≠ .ok (.error x)) ↔
        ¬ RunPanicExecuted ex chain n ∨ RunReaches ex chain stolen n) := by
  refine ⟨fun op stolen splits s e m => ranked_iff (tree_ends op stolen splits s e m), foldl_record, ?_⟩
  intro ex chain stolen order n hord
  constructor
  · intro h
    by_cases hp : RunPanicExecuted ex chain n
    · right
      rcases hres : tryCollect ex chain stolen order n with p | (x | out)
      · exact ((tryCollect_error ex chain stolen hord).1 ⟨p, hres⟩).2.2
      · exact absurd hres (h hp x)
      · exact absurd hres (tryCollect_ok ex chain stolen hord hp out).2
    · exact Or.inl hp
  · intro h hp x hx
    have hn := (tryCollect_ok ex chain stolen hord hp none).1
    obtain ⟨p, hres⟩ := (tryCollect_error ex chain stolen hord).2 ⟨hn, hp, h.resolve_left (not_not_intro hp)⟩
    rw [hx] at hres
    cases hres

/-- four items: the first op returns an error, the third panics -/
def errBeforePanic : ℕ → Outcome ℕ ℕ ℕ
  | 0 => .err 7
  | 2 => .panics 9
  | i => .ok i

/-- a worker of a pool of four that starts a nested batch, everything at its default -/
def nestedCaller : Exec := ⟨⟨none, none, .off⟩, .balanced, 4, true⟩

/-- the same batch started off the pool -/
def offPoolCaller : Exec := ⟨⟨none, none, .off⟩, .balanced, 4, false⟩

/-- the four chunks of that batch, the last one first -/
def reversedChunks : List Chunk := [⟨3, 4, 0⟩, ⟨2, 3, 0⟩, ⟨1, 2, 0⟩, ⟨0, 1, 0⟩]

/-- off the pool every item is a chunk of its own, and the panic is kept although an error is reported too -/
theorem panic_outranks_off_pool : RunPanicExecuted offPoolCaller (.pure errBeforePanic) 4 ∧
    ∀ x, tryCollect offPoolCaller (.pure errBeforePanic) (fun _ _ => false) reversedChunks 4 ≠ .ok (.error x) := by
  have hp : RunPanicExecuted offPoolCaller (.pure errBeforePanic) 4 := by
    refine ⟨⟨2, 3, 0⟩, by decide +kernel, 2, 9, ⟨(2, 3), by decide, ?_⟩, rfl⟩
    exact ⟨le_refl 2, Nat.lt_succ_self 2, fun j h1 h2 => absurd (lt_of_le_of_lt h1 h2) (lt_irrefl 2)⟩
  have hreach : RunReaches offPoolCaller (.pure errBeforePanic) (fun _ _ => false) 4 :=
    ⟨⟨2, 3, 0⟩, by decide +kernel, by decide⟩
  refine ⟨hp, (panic_outranks_iff.2.2 offPoolCaller (.pure errBeforePanic) _ _ 4 ?_).2 (Or.inr hreach) hp⟩
  intro plan hplan
  rw [show terminalPlan offPoolCaller.knobs 4 offPoolCaller.workload offPoolCaller.numThreads = .parallel ⟨2, 0⟩ by
    decide +kernel] at hplan
  cases hplan
  decide +kernel

/-- **A panic hidden by an error.** A worker of a pool of four starts a `try_collect` of four items on one tree. Item 2 is
executed and panics; its panic comes back from the B side of the root as an error value, and the op error of item 0 on the
A side is what the run returns. -/
theorem panic_hidden_by_error :
    ¬ Ranked errBeforePanic 2 0 4 (parTreeRec (parIndexTryLeaf errBeforePanic) (fun _ _ => false) 2 0 4 Mem.fresh).1 ∧
    RunPanicExecuted nestedCaller (.pure errBeforePanic) 4 ∧
    tryCollect nestedCaller (.pure errBeforePanic) (fun _ _ => false) [] 4 = .ok (.error 7) := by
  have hp : PanicExecuted errBeforePanic 2 0 4 := by
    refine ⟨2, 9, ⟨(2, 3), by decide, ?_⟩, rfl⟩
    exact ⟨le_refl 2, Nat.lt_succ_self 2, fun j h1 h2 => absurd (lt_of_le_of_lt h1 h2) (lt_irrefl 2)⟩
  refine ⟨fun h => h.panic hp, ⟨⟨0, 4, 2⟩, by decide +kernel, ?_⟩, ?_⟩
  · exact (panicExecuted_pure errBeforePanic 2 0 4).2 hp
  · decide +kernel

end YouPipe.Fused
