/-
Stage chains (`builder/typed/traits.rs`). A chain is built stage by stage at compile time; `MAY_FILTER` is a constant of its
type, and the terminals choose their core by it. `applyPure` is the `Option`-free application of the hot path: on a chain
that may filter it would run into `unreachable_unchecked`, which the model shows as `none`, so a `FusedOp` carries the proof
that its chain cannot filter.
-/
import Mathlib.Tactic

namespace YouPipe.Fused

/-- `FusedStage`: identity, `map` and `filter` stages over an infallible chain -/
inductive Chain : Type → Type → Type 1 where
  | identity (T : Type) : Chain T T
  | syncMap {I M O : Type} (prev : Chain I M) (f : M → O) : Chain I O
  | filter {I O : Type} (prev : Chain I O) (p : O → Bool) : Chain I O

namespace Chain

/-- `MAY_FILTER` -/
def mayFilter {I O : Type} : Chain I O → Bool
  | .identity _ => false
  | .syncMap prev _ => prev.mayFilter
  | .filter _ _ => true

def apply {I O : Type} : Chain I O → I → Option O
  | .identity _, x => some x
  | .syncMap prev f, x => (prev.apply x).map f
  | .filter prev p, x => (prev.apply x).filter p

/-- `none` stands for `unreachable_unchecked` -/
def applyPure {I O : Type} : Chain I O → I → Option O
  | .identity _, x => some x
  | .syncMap prev f, x => (prev.applyPure x).map f
  | .filter prev p, x => (Chain.filter prev p).apply x

/-- on a chain that cannot filter both applications give the same value -/
theorem apply_of_pure {I O : Type} (c : Chain I O) (h : c.mayFilter = false) (x : I) :
    ∃ v, c.apply x = some v ∧ c.applyPure x = some v := by
  induction c with
  | identity => exact ⟨x, rfl, rfl⟩
  | syncMap prev f ih =>
    obtain ⟨v, h1, h2⟩ := ih h
    exact ⟨f v, by simp [apply, h1], by simp [applyPure, h2]⟩
  | filter prev p _ => cases h

end Chain

/-- a chain that cannot filter, as the op of the index cores -/
structure FusedOp (I O : Type) where
  stages : Chain I O
  pure : stages.mayFilter = false

theorem FusedOp.isSome {I O : Type} (op : FusedOp I O) (x : I) : (op.stages.applyPure x).isSome = true := by
  obtain ⟨v, -, hv⟩ := op.stages.apply_of_pure op.pure x
  rw [hv]; rfl

/-- `RangeOp::apply` of a `FusedOp` -/
def FusedOp.apply {I O : Type} (op : FusedOp I O) (x : I) : O := (op.stages.applyPure x).get (op.isSome x)

theorem FusedOp.apply_spec {I O : Type} (op : FusedOp I O) (x : I) : op.stages.apply x = some (op.apply x) := by
  obtain ⟨v, h1, h2⟩ := op.stages.apply_of_pure op.pure x
  rw [h1]
  simp [FusedOp.apply, h2]

/-- `FusedTryStage`: fallible chains; the error type is fixed along the chain except at `mapErr` -/
inductive TryChain : Type → Type → Type → Type 1 where
  | identity (T : Type) : TryChain T T Empty
  | syncMap {I M O E : Type} (prev : TryChain I M E) (f : M → O) : TryChain I O E
  | filter {I O E : Type} (prev : TryChain I O E) (p : O → Bool) : TryChain I O E
  | tryMap {I M O E : Type} (prev : TryChain I M E) (f : M → Except E O) : TryChain I O E
  | infallible {I O : Type} (E : Type) (stages : Chain I O) : TryChain I O E
  | mapErr {I O E E' : Type} (prev : TryChain I O E) (f : E → E') : TryChain I O E'

def TryChain.tryApply {I O E : Type} : TryChain I O E → I → Except E (Option O)
  | .identity _, x => .ok (some x)
  | .syncMap prev f, x => do
    match ← prev.tryApply x with
    | some v => .ok (some (f v))
    | none => .ok none
  | .filter prev p, x => do
    match ← prev.tryApply x with
    | some v => if p v then .ok (some v) else .ok none
    | none => .ok none
  | .tryMap prev f, x => do
    match ← prev.tryApply x with
    | some v =>
      let out ← f v
      .ok (some out)
    | none => .ok none
  | .infallible _ stages, x => .ok (stages.apply x)
  | .mapErr prev f, x => match prev.tryApply x with
    | .ok v => .ok v
    | .error e => .error (f e)

end YouPipe.Fused
