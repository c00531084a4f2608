/-
The two ways to apply a stage chain (`FusedStage` and `FusedTryStage` in `builder/typed/traits.rs`), with the closures as
computations of an arbitrary monad: they may panic, log, or change shared state, and the two ways must agree on that too. Every
stage implements `apply` and `apply_pure` by itself and composes `MAY_FILTER` from its predecessor; the default body of
`apply_pure` ends in `unreachable_unchecked`, which the model shows as the outcome `unreachable`.

Results:
- `pure_application`: on a chain whose `MAY_FILTER` is false both applications are one and the same computation, up to the
  `Option` around its value; so no outcome is `unreachable`;
- `consume_eq`, `fold_eq`, `serialStageCollect_eq`, `serialStageForEach_eq`, `serialStageTryCollect_eq`: the terminals branch on
  `MAY_FILTER` first, so on every chain they do what the optional application does and never run into the unchecked branch;
- `apply_effects` and its companions: the chains of the other modules are the case of pure closures.
-/
import Mathlib.Tactic
import YouPipe.Fused.Stages

namespace YouPipe.PureApply

/-- the outcome of the `Option`-free application -/
inductive Reached (V : Type) where
  | value (v : V)
  | unreachable
deriving DecidableEq, Repr

variable {m : Type → Type}

/-- `FusedStage` -/
inductive Stage (m : Type → Type) : Type → Type → Type 1 where
  | identity (T : Type) : Stage m T T
  | syncMap {I M O : Type} (prev : Stage m I M) (f : M → m O) : Stage m I O
  | filter {I O : Type} (prev : Stage m I O) (f : O → m Bool) : Stage m I O

/-- `FusedTryStage` -/
inductive TryStage (m : Type → Type) : Type → Type → Type → Type 1 where
  | identity (T : Type) : TryStage m T T Empty
  | syncMap {I M O E : Type} (prev : TryStage m I M E) (f : M → m O) : TryStage m I O E
  | filter {I O E : Type} (prev : TryStage m I O E) (f : O → m Bool) : TryStage m I O E
  | tryMap {I M O E : Type} (prev : TryStage m I M E) (f : M → m (Except E O)) : TryStage m I O E
  | infallible {I O : Type} (E : Type) (stages : Stage m I O) : TryStage m I O E
  | mapErr {I O E E' : Type} (prev : TryStage m I O E) (f : E → m E') : TryStage m I O E'

/-! ## `FusedStage` -/

namespace Stage

/-- `MAY_FILTER` -/
def mayFilter {I O : Type} : Stage m I O → Bool
  | .identity _ => false
  | .syncMap prev _ => prev.mayFilter
  | .filter _ _ => true

variable [Monad m]

def apply {I O : Type} : Stage m I O → I → m (Option O)
  | .identity _, item => pure (some item)
  | .syncMap prev f, item => do
    match ← prev.apply item with
    | some v => some <$> f v
    | none => pure none
  | .filter prev f, item => do
    match ← prev.apply item with
    | some v => if ← f v then pure (some v) else pure none
    | none => pure none

def applyPure {I O : Type} : Stage m I O → I → m (Reached O)
  | .identity _, item => pure (.value item)
  | .syncMap prev f, item => do
    match ← prev.applyPure item with
    | .value v => .value <$> f v
    | .unreachable => pure .unreachable
  -- no override: the default body of the trait
  | .filter prev f, item => do
    match ← (Stage.filter prev f).apply item with
    | some v => pure (.value v)
    | none => pure .unreachable

variable [LawfulMonad m]

/-- on a chain that cannot filter both applications run the same computation -/
theorem apply_factor {I O : Type} (c : Stage m I O) (h : c.mayFilter = false) (item : I) :
    ∃ r : m O, c.applyPure item = Reached.value <$> r ∧ c.apply item = some <$> r := by
  induction c with
  | identity => exact ⟨pure item, by simp [applyPure], by simp [apply]⟩
  | syncMap prev f ih =>
    obtain ⟨r, hpure, happly⟩ := ih h
    refine ⟨r >>= f, ?_, ?_⟩
    · simp [applyPure, hpure]
    · simp [apply, happly]
  | filter prev f _ => cases h

end Stage

/-! ## `FusedTryStage` -/

namespace TryStage

/-- `MAY_FILTER` -/
def mayFilter {I O E : Type} : TryStage m I O E → Bool
  | .identity _ => false
  | .syncMap prev _ => prev.mayFilter
  | .filter _ _ => true
  | .tryMap prev _ => prev.mayFilter
  | .infallible _ stages => stages.mayFilter
  | .mapErr prev _ => prev.mayFilter

variable [Monad m]

def tryApply {I O E : Type} : TryStage m I O E → I → m (Except E (Option O))
  | .identity _, item => pure (.ok (some item))
  | .syncMap prev f, item => do
    match ← prev.tryApply item with
    | .ok (some v) => (fun o => .ok (some o)) <$> f v
    | .ok none => pure (.ok none)
    | .error e => pure (.error e)
  | .filter prev f, item => do
    match ← prev.tryApply item with
    | .ok (some v) => if ← f v then pure (.ok (some v)) else pure (.ok none)
    | .ok none => pure (.ok none)
    | .error e => pure (.error e)
  | .tryMap prev f, item => do
    match ← prev.tryApply item with
    | .ok (some v) =>
      match ← f v with
      | .ok out => pure (.ok (some out))
      | .error e => pure (.error e)
    | .ok none => pure (.ok none)
    | .error e => pure (.error e)
  | .infallible _ stages, item => .ok <$> stages.apply item
  | .mapErr prev f, item => do
    match ← prev.tryApply item with
    | .ok v => pure (.ok v)
    | .error e => .error <$> f e

def tryApplyPure {I O E : Type} : TryStage m I O E → I → m (Reached (Except E O))
  | .identity _, item => pure (.value (.ok item))
  | .syncMap prev f, item => do
    match ← prev.tryApplyPure item with
    | .value (.ok v) => (fun o => .value (.ok o)) <$> f v
    | .value (.error e) => pure (.value (.error e))
    | .unreachable => pure .unreachable
  -- no override: the default body of the trait
  | .filter prev f, item => do
    match ← (TryStage.filter prev f).tryApply item with
    | .ok (some v) => pure (.value (.ok v))
    | .ok none => pure .unreachable
    | .error e => pure (.value (.error e))
  | .tryMap prev f, item => do
    match ← prev.tryApplyPure item with
    | .value (.ok v) => .value <$> f v
    | .value (.error e) => pure (.value (.error e))
    | .unreachable => pure .unreachable
  | .infallible _ stages, item => do
    match ← stages.applyPure item with
    | .value v => pure (.value (.ok v))
    | .unreachable => pure .unreachable
  | .mapErr prev f, item => do
    match ← prev.tryApplyPure item with
    | .value (.ok v) => pure (.value (.ok v))
    | .value (.error e) => (fun e => .value (.error e)) <$> f e
    | .unreachable => pure .unreachable

variable [LawfulMonad m]

/-- on a chain that cannot filter both applications run the same computation -/
theorem tryApply_factor {I O E : Type} (c : TryStage m I O E) (h : c.mayFilter = false) (item : I) :
    ∃ r : m (Except E O), c.tryApplyPure item = Reached.value <$> r ∧ c.tryApply item = Except.map some <$> r := by
  induction c with
  | identity => exact ⟨pure (.ok item), by simp [tryApplyPure], by simp [tryApply, Except.map]⟩
  | syncMap prev f ih =>
    obtain ⟨r, hpure, happly⟩ := ih h
    -- an error of the predecessor skips the closure on both sides
    refine ⟨r >>= fun x => x.casesOn (fun e => pure (.error e)) fun v => .ok <$> f v, ?_, ?_⟩
    · simp only [tryApplyPure, hpure, bind_map_left, map_bind]
      refine bind_congr fun x => ?_
      cases x <;> simp
    · simp only [tryApply, happly, bind_map_left, map_bind]
      refine bind_congr fun x => ?_
      cases x <;> simp [Except.map]
  | filter prev f _ => cases h
  | tryMap prev f ih =>
    obtain ⟨r, hpure, happly⟩ := ih h
    refine ⟨r >>= fun x => x.casesOn (fun e => pure (.error e)) fun v => f v, ?_, ?_⟩
    · simp only [tryApplyPure, hpure, bind_map_left, map_bind]
      refine bind_congr fun x => ?_
      cases x <;> simp
    · simp only [tryApply, happly, bind_map_left, map_bind]
      refine bind_congr fun x => ?_
      cases x with
      | error e => simp [Except.map]
      | ok v =>
        simp only [Except.map, map_eq_pure_bind]
        refine bind_congr fun y => ?_
        cases y <;> rfl
  | infallible E stages =>
    obtain ⟨r, hpure, happly⟩ := stages.apply_factor h item
    exact ⟨.ok <$> r, by simp [tryApplyPure, hpure], by simp [tryApply, happly, Except.map]⟩
  | mapErr prev f ih =>
    obtain ⟨r, hpure, happly⟩ := ih h
    refine ⟨r >>= fun x => x.casesOn (fun e => .error <$> f e) fun v => pure (.ok v), ?_, ?_⟩
    · simp only [tryApplyPure, hpure, bind_map_left, map_bind]
      refine bind_congr fun x => ?_
      cases x <;> simp
    · simp only [tryApply, happly, bind_map_left, map_bind]
      refine bind_congr fun x => ?_
      cases x <;> simp [Except.map]

end TryStage

/-- **Pure application agrees with optional application.** On every chain whose `MAY_FILTER` is false there is one computation
behind both: `apply_pure` returns its value and `apply` the same value in `Some`; `try_apply_pure` returns its `Ok` or `Err`,
and `try_apply` the same `Err` or the `Ok` value in `Some`. Neither pure form reaches its unchecked branch. -/
theorem pure_application [Monad m] [LawfulMonad m] :
    (∀ {I O : Type} (c : Stage m I O), c.mayFilter = false → ∀ item, ∃ r : m O,
      c.applyPure item = Reached.value <$> r ∧ c.apply item = some <$> r) ∧
    ∀ {I O E : Type} (c : TryStage m I O E), c.mayFilter = false → ∀ item, ∃ r : m (Except E O),
      c.tryApplyPure item = Reached.value <$> r ∧ c.tryApply item = Except.map some <$> r :=
  ⟨fun c h item => c.apply_factor h item, fun c h item => c.tryApply_factor h item⟩

/-- a chain over every kind of stage that cannot filter; the closures count their calls and one of them panics on zero -/
def counted : TryStage (StateT ℕ Option) ℕ ℕ String :=
  let tick : StateT ℕ Option Unit := modify (· + 1)
  .mapErr (.tryMap (.infallible ℕ (.syncMap (.identity ℕ) fun v => do
      tick
      if v = 0 then failure else pure (v + 1)))
    fun v => do
      tick
      pure (if v < 5 then .ok (10 * v) else .error v))
    fun e => do
      tick
      pure (toString e)

theorem pure_application_counted : counted.mayFilter = false ∧
    (∃ r, counted.tryApplyPure 2 = Reached.value <$> r ∧ counted.tryApply 2 = Except.map some <$> r) ∧
    counted.tryApplyPure 2 0 = some (.value (.ok 30), 2) ∧ counted.tryApply 2 0 = some (.ok (some 30), 2) ∧
    counted.tryApplyPure 7 0 = some (.value (.error "8"), 3) ∧ counted.tryApply 7 0 = some (.error "8", 3) ∧
    counted.tryApplyPure 0 0 = none ∧ counted.tryApply 0 0 = none :=
  ⟨rfl, pure_application.2 counted rfl 2, rfl, rfl, rfl, rfl, rfl, rfl⟩

/-! ## The terminals -/

section Terminals

variable [Monad m] {I O E A : Type}

/-- the arm of a terminal for chains that may filter: a filtered item leaves `skip` -/
def onApply (c : Stage m I O) (skip : A) (k : O → m A) (item : I) : m (Reached A) := do
  match ← c.apply item with
  | some o => .value <$> k o
  | none => pure (.value skip)

/-- the pure arm -/
def onApplyPure (c : Stage m I O) (k : O → m A) (item : I) : m (Reached A) := do
  match ← c.applyPure item with
  | .value o => .value <$> k o
  | .unreachable => pure .unreachable

/-- a `for` loop; an unreachable branch ends it -/
def each (body : A → I → m (Reached A)) : A → List I → m (Reached A)
  | acc, [] => pure (.value acc)
  | acc, item :: items => do
    match ← body acc item with
    | .value acc => each body acc items
    | .unreachable => pure .unreachable

/-- `FusedSink::consume` -/
def consume (c : Stage m I O) (f : O → m Unit) (item : I) : m (Reached Unit) :=
  if c.mayFilter then onApply c () f item else onApplyPure c f item

/-- `FusedReduce::fold` -/
def fold (c : Stage m I O) (f : A → O → m A) (acc : A) (item : I) : m (Reached A) :=
  if c.mayFilter then onApply c acc (f acc) item else onApplyPure c (f acc) item

def serialStageCollect (c : Stage m I O) (items : List I) : m (Reached (List O)) :=
  if c.mayFilter then each (fun out => onApply c out fun o => pure (out ++ [o])) [] items
  else each (fun out => onApplyPure c fun o => pure (out ++ [o])) [] items

def serialStageForEach (c : Stage m I O) (f : O → m Unit) (items : List I) : m (Reached Unit) :=
  if c.mayFilter then each (fun _ => onApply c () f) () items else each (fun _ => onApplyPure c f) () items

/-- a `for` loop with `?` in its body: the first error ends it -/
def tryEach (body : A → I → m (Reached (Except E A))) : A → List I → m (Reached (Except E A))
  | acc, [] => pure (.value (.ok acc))
  | acc, item :: items => do
    match ← body acc item with
    | .value (.ok acc) => tryEach body acc items
    | .value (.error e) => pure (.value (.error e))
    | .unreachable => pure .unreachable

def serialStageTryCollect (c : TryStage m I O E) (items : List I) : m (Reached (Except E (List O))) :=
  if c.mayFilter then
    tryEach (fun out item => do
      match ← c.tryApply item with
      | .ok (some o) => pure (.value (.ok (out ++ [o])))
      | .ok none => pure (.value (.ok out))
      | .error e => pure (.value (.error e))) [] items
  else
    tryEach (fun out item => do
      match ← c.tryApplyPure item with
      | .value (.ok o) => pure (.value (.ok (out ++ [o])))
      | .value (.error e) => pure (.value (.error e))
      | .unreachable => pure .unreachable) [] items

/-- what a terminal does with one item, by the optional application -/
def visit (c : Stage m I O) (skip : A) (k : O → m A) (item : I) : m A := do
  match ← c.apply item with
  | some o => k o
  | none => pure skip

/-- what a fallible collect does with one item, by the optional application -/
def tryVisit (c : TryStage m I O E) (out : List O) (item : I) : ExceptT E m (List O) := do
  match ← ExceptT.mk (c.tryApply item) with
  | some o => pure (out ++ [o])
  | none => pure out

variable [LawfulMonad m]

theorem onApply_eq (c : Stage m I O) (skip : A) (k : O → m A) (item : I) :
    onApply c skip k item = Reached.value <$> visit c skip k item := by
  simp only [onApply, visit, map_bind]
  refine bind_congr fun x => ?_
  cases x <;> simp

theorem onApplyPure_eq {c : Stage m I O} (h : c.mayFilter = false) (skip : A) (k : O → m A) (item : I) :
    onApplyPure c k item = Reached.value <$> visit c skip k item := by
  obtain ⟨r, hpure, happly⟩ := c.apply_factor h item
  simp [onApplyPure, visit, hpure, happly]

theorem each_eq {body : A → I → m (Reached A)} {g : A → I → m A} (h : ∀ acc item, body acc item = Reached.value <$> g acc item)
    (acc : A) (items : List I) : each body acc items = Reached.value <$> items.foldlM g acc := by
  induction items generalizing acc with
  | nil => simp [each]
  | cons item items ih => simp [each, h, ih]

theorem tryEach_eq {body : A → I → m (Reached (Except E A))} {g : A → I → ExceptT E m A}
    (h : ∀ acc item, body acc item = Reached.value <$> (g acc item).run) (acc : A) (items : List I) :
    tryEach body acc items = Reached.value <$> (items.foldlM g acc).run := by
  induction items generalizing acc with
  | nil => simp [tryEach]
  | cons item items ih =>
    simp only [tryEach, h, bind_map_left, List.foldlM_cons, ExceptT.run_bind, map_bind]
    refine bind_congr fun x => ?_
    cases x with
    | ok acc => exact ih acc
    | error e => simp

theorem consume_eq (c : Stage m I O) (f : O → m Unit) (item : I) :
    consume c f item = Reached.value <$> visit c () f item := by
  unfold consume
  split_ifs with h
  · exact onApply_eq c () f item
  · exact onApplyPure_eq (by simpa using h) () f item

theorem fold_eq (c : Stage m I O) (f : A → O → m A) (acc : A) (item : I) :
    fold c f acc item = Reached.value <$> visit c acc (f acc) item := by
  unfold fold
  split_ifs with h
  · exact onApply_eq c acc (f acc) item
  · exact onApplyPure_eq (by simpa using h) acc (f acc) item

theorem serialStageCollect_eq (c : Stage m I O) (items : List I) :
    serialStageCollect c items =
      Reached.value <$> items.foldlM (fun out => visit c out fun o => pure (out ++ [o])) [] := by
  unfold serialStageCollect
  split_ifs with h
  · exact each_eq (fun out item => onApply_eq c out _ item) [] items
  · exact each_eq (fun out item => onApplyPure_eq (by simpa using h) out _ item) [] items

theorem serialStageForEach_eq (c : Stage m I O) (f : O → m Unit) (items : List I) :
    serialStageForEach c f items = Reached.value <$> items.foldlM (fun _ => visit c () f) () := by
  unfold serialStageForEach
  split_ifs with h
  · exact each_eq (fun _ item => onApply_eq c () f item) () items
  · exact each_eq (fun _ item => onApplyPure_eq (by simpa using h) () f item) () items

theorem serialStageTryCollect_eq (c : TryStage m I O E) (items : List I) :
    serialStageTryCollect c items = Reached.value <$> (items.foldlM (tryVisit c) []).run := by
  unfold serialStageTryCollect
  split_ifs with h
  · refine tryEach_eq (fun out item => ?_) [] items
    simp only [tryVisit, ExceptT.run_bind, ExceptT.run_mk, map_bind]
    refine bind_congr fun x => ?_
    rcases x with e | (_ | o) <;> simp
  · refine tryEach_eq (fun out item => ?_) [] items
    obtain ⟨r, hpure, happly⟩ := c.tryApply_factor (by simpa using h) item
    simp only [tryVisit, ExceptT.run_bind, ExceptT.run_mk, hpure, happly, bind_map_left, map_bind]
    refine bind_congr fun x => ?_
    rcases x with e | o <;> simp [Except.map]

end Terminals

/-! ## Pure closures -/

open YouPipe.Fused (Chain TryChain)

/-- a chain of pure closures, as a chain of computations without effects -/
def effects {I O : Type} : Chain I O → Stage Id I O
  | .identity _ => .identity _
  | .syncMap prev f => .syncMap (effects prev) fun v => pure (f v)
  | .filter prev p => .filter (effects prev) fun v => pure (p v)

def tryEffects {I O E : Type} : TryChain I O E → TryStage Id I O E
  | .identity _ => .identity _
  | .syncMap prev f => .syncMap (tryEffects prev) fun v => pure (f v)
  | .filter prev p => .filter (tryEffects prev) fun v => pure (p v)
  | .tryMap prev f => .tryMap (tryEffects prev) fun v => pure (f v)
  | .infallible _ stages => .infallible _ (effects stages)
  | .mapErr prev f => .mapErr (tryEffects prev) fun v => pure (f v)

theorem mayFilter_effects {I O : Type} (c : Chain I O) : (effects c).mayFilter = c.mayFilter := by
  induction c with
  | identity => rfl
  | syncMap prev f ih => exact ih
  | filter prev p _ => rfl

theorem apply_effects {I O : Type} (c : Chain I O) (x : I) : ((effects c).apply x).run = c.apply x := by
  induction c with
  | identity => rfl
  | syncMap prev f ih =>
    simp only [effects, Stage.apply, Chain.apply, ← ih]
    cases h : ((effects prev).apply x).run <;> simp [h]
  | filter prev p ih =>
    simp only [effects, Stage.apply, Chain.apply, ← ih]
    cases h : ((effects prev).apply x).run with
    | none => simp [h]
    | some v => cases hp : p v <;> simp [h, hp, Option.filter]

/-- `none` of the pure model is the unreachable branch -/
theorem applyPure_effects {I O : Type} (c : Chain I O) (x : I) :
    ((effects c).applyPure x).run = (c.applyPure x).elim .unreachable .value := by
  induction c with
  | identity => rfl
  | syncMap prev f ih =>
    simp only [effects, Stage.applyPure, Chain.applyPure]
    have h := ih
    cases hp : prev.applyPure x <;> simp_all
  | filter prev p _ =>
    have h := apply_effects (.filter prev p) x
    simp only [Stage.applyPure, effects, Chain.applyPure] at h ⊢
    cases hp : (Chain.filter prev p).apply x <;> simp_all

theorem tryApply_effects {I O E : Type} (c : TryChain I O E) (x : I) : ((tryEffects c).tryApply x).run = c.tryApply x := by
  induction c with
  | identity => rfl
  | syncMap prev f ih =>
    simp only [tryEffects, TryStage.tryApply, TryChain.tryApply, ← ih]
    rcases h : ((tryEffects prev).tryApply x).run with e | (_ | v) <;> simp [h] <;> rfl
  | filter prev p ih =>
    simp only [tryEffects, TryStage.tryApply, TryChain.tryApply, ← ih]
    rcases h : ((tryEffects prev).tryApply x).run with e | (_ | v) <;> simp [h] <;> rfl
  | tryMap prev f ih =>
    simp only [tryEffects, TryStage.tryApply, TryChain.tryApply, ← ih]
    rcases h : ((tryEffects prev).tryApply x).run with e | (_ | v)
    · simp [h]; rfl
    · simp [h]; rfl
    · cases hf : f v <;> simp [h, hf] <;> simp [bind, Except.bind, hf]
  | infallible E stages => simp [tryEffects, TryStage.tryApply, TryChain.tryApply, apply_effects]
  | mapErr prev f ih =>
    simp only [tryEffects, TryStage.tryApply, TryChain.tryApply, ← ih]
    rcases h : ((tryEffects prev).tryApply x).run with e | v <;> simp [h]

end YouPipe.PureApply
