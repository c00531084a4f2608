/-
Vectors of raw slots. A slot of uninitialised memory holds a value (`live`) or has been moved out of (`moved`); nothing but the
code's own indices says which. Reading or dropping a slot that was moved out is a fault, and so is losing a live value: writing
over it, or clearing the vector with one inside.

`staged j xs` is the shape a drained staging vector has: the first `j` slots moved out, the values `xs` behind them. Each
operation at the boundary `j` has its equation on that shape.
-/
import Mathlib.Tactic

namespace YouPipe.RawVec

inductive Slot (T : Type) where
  | live (x : T)
  | moved
deriving DecidableEq, Repr

inductive Fault where
  | readMoved
  | dropMoved
  | outOfBounds
  | leaked
  | looped
deriving DecidableEq, Repr

variable {T : Type}

/-- move the value out of slot `i` -/
def read (v : List (Slot T)) (i : ℕ) : Except Fault (T × List (Slot T)) :=
  match v[i]? with
  | some (.live x) => .ok (x, v.set i .moved)
  | some .moved => .error .readMoved
  | none => .error .outOfBounds

/-- write slot `i` without dropping what it held -/
def write (v : List (Slot T)) (i : ℕ) (x : T) : Except Fault (List (Slot T)) :=
  match v[i]? with
  | some (.live _) => .error .leaked
  | some .moved => .ok (v.set i (.live x))
  | none => .error .outOfBounds

/-- drop every slot in place, in order -/
def dropAll : List (Slot T) → Except Fault (List T)
  | [] => .ok []
  | .live x :: rest => do
    let xs ← dropAll rest
    .ok (x :: xs)
  | .moved :: _ => .error .dropMoved

/-- drop the slots from `i` on -/
def dropFrom (v : List (Slot T)) (i : ℕ) : Except Fault (List T × List (Slot T)) := do
  let xs ← dropAll (v.drop i)
  .ok (xs, v.take i ++ List.replicate (v.length - i) .moved)

/-- forget the slots; no destructor runs -/
def clear (v : List (Slot T)) : Except Fault (List (Slot T)) :=
  if v.any fun s => match s with
    | .live _ => true
    | .moved => false
  then .error .leaked else .ok []

/-- no slot holds a value -/
def Spent (v : List (Slot T)) : Prop := ∀ s ∈ v, s = .moved

/-- `j` slots moved out, then the values `xs` -/
def staged (j : ℕ) (xs : List T) : List (Slot T) := List.replicate j .moved ++ xs.map .live

/-! ## Operations at the boundary -/

@[simp] theorem length_staged (j : ℕ) (xs : List T) : (staged j xs).length = j + xs.length := by simp [staged]

theorem staged_succ (j : ℕ) (xs : List T) : staged (j + 1) xs = List.replicate j .moved ++ .moved :: xs.map .live := by
  rw [staged, List.replicate_succ', List.append_assoc, List.singleton_append]

theorem set_at_length {σ : Type} (l r : List σ) (a b : σ) : (l ++ a :: r).set l.length b = l ++ b :: r := by
  simp

theorem read_staged (j : ℕ) (x : T) (xs : List T) : read (staged j (x :: xs)) j = .ok (x, staged (j + 1) xs) := by
  have hget : (staged j (x :: xs))[j]? = some (.live x) := by simp [staged]
  have hset : (staged j (x :: xs)).set j .moved = staged (j + 1) xs := by
    rw [staged_succ, staged, List.map_cons]
    have h := set_at_length (List.replicate j Slot.moved) (xs.map Slot.live) (.live x) .moved
    rwa [List.length_replicate] at h
  simp only [read, hget, hset]

theorem write_staged (j : ℕ) (x : T) (xs : List T) : write (staged (j + 1) xs) j x = .ok (staged j (x :: xs)) := by
  have hget : (staged (j + 1) xs)[j]? = some .moved := by simp [staged_succ]
  have hset : (staged (j + 1) xs).set j (.live x) = staged j (x :: xs) := by
    rw [staged_succ, staged, List.map_cons]
    have h := set_at_length (List.replicate j Slot.moved) (xs.map Slot.live) .moved (.live x)
    rwa [List.length_replicate] at h
  simp only [write, hget, hset]

theorem dropAll_live (xs : List T) : dropAll (xs.map Slot.live) = .ok xs := by
  induction xs with
  | nil => rfl
  | cons x xs ih => simp [dropAll, ih, bind, Except.bind]

theorem dropFrom_staged (j : ℕ) (xs : List T) : dropFrom (staged j xs) j = .ok (xs, staged (j + xs.length) []) := by
  have hdrop : (staged j xs).drop j = xs.map .live := by simp [staged]
  have htake : (staged j xs).take j = List.replicate j .moved := by simp [staged]
  simp only [dropFrom, hdrop, htake, dropAll_live, bind, Except.bind, length_staged, Nat.add_sub_cancel_left]
  rw [List.replicate_append_replicate, staged, List.map_nil, List.append_nil]

theorem clear_spent {v : List (Slot T)} (h : Spent v) : clear v = .ok [] := by
  unfold clear
  rw [if_neg]
  simp only [List.any_eq_true, not_exists, not_and]
  intro s hs
  rw [h s hs]
  simp

theorem spent_staged (j : ℕ) : Spent (staged j ([] : List T)) := by
  intro s hs
  simp only [staged, List.map_nil, List.append_nil] at hs
  exact List.eq_of_mem_replicate hs

theorem spent_nil : Spent ([] : List (Slot T)) := by
  intro s hs
  simp at hs

end YouPipe.RawVec
