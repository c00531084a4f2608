/-
Bounded first-in first-out queues with batches, as the sequential object a concurrent queue stands for. A history is a list of
events, each at the moment it takes effect: a party appends items in one go, claims the oldest ones in one go, and later has the
items of its claim in hand; or it is told that the queue is full, or empty.

`Accepts` are the histories such a queue allows. In each of them the items come out in the order they went in, every claimed item
reaches the party that claimed it (`Accepts.order`, `Accepts.hands`), and the queue never holds more than its capacity.
-/
import Mathlib.Tactic

namespace YouPipe.Fifo

inductive Event (T : Type)
  | push (t : ℕ) (xs : List T)
  | claim (t : ℕ) (xs : List T)
  | got (t : ℕ) (xs : List T)
  | full (t : ℕ)
  | empty (t : ℕ)
deriving DecidableEq, Repr

/-- what is queued, and what each party has claimed and not yet in hand -/
structure Spec (T : Type) where
  queue : List T
  held : ℕ → List T

variable {T : Type} {cap : ℕ} {log : List (Event T)} {q q' : Spec T}

inductive Allows (cap : ℕ) : Spec T → Event T → Spec T → Prop
  | push (q : Spec T) (t : ℕ) (xs : List T) (room : q.queue.length + xs.length ≤ cap) :
      Allows cap q (.push t xs) { q with queue := q.queue ++ xs }
  | claim (q : Spec T) (t : ℕ) (xs rest : List T) (oldest : q.queue = xs ++ rest) (none : q.held t = []) :
      Allows cap q (.claim t xs) ⟨rest, Function.update q.held t xs⟩
  | got (q : Spec T) (t : ℕ) (xs : List T) (held : q.held t = xs) :
      Allows cap q (.got t xs) { q with held := Function.update q.held t [] }
  | full (q : Spec T) (t : ℕ) (full : q.queue.length = cap) : Allows cap q (.full t) q
  | empty (q : Spec T) (t : ℕ) (empty : q.queue = []) : Allows cap q (.empty t) q

inductive Accepts (cap : ℕ) : List (Event T) → Spec T → Prop
  | nil : Accepts cap [] ⟨[], fun _ => []⟩
  | snoc {log : List (Event T)} {q q' : Spec T} {e : Event T} :
      Accepts cap log q → Allows cap q e q' → Accepts cap (log ++ [e]) q'

/-! ## What a history says -/

/-- everything appended, in order -/
def pushed (log : List (Event T)) : List T :=
  log.flatMap fun
    | .push _ xs => xs
    | _ => []

/-- everything claimed, in order -/
def claimed (log : List (Event T)) : List T :=
  log.flatMap fun
    | .claim _ xs => xs
    | _ => []

/-- what party `t` claimed -/
def claimedBy (t : ℕ) (log : List (Event T)) : List T :=
  log.flatMap fun
    | .claim u xs => if u = t then xs else []
    | _ => []

/-- what party `t` had in hand -/
def handed (t : ℕ) (log : List (Event T)) : List T :=
  log.flatMap fun
    | .got u xs => if u = t then xs else []
    | _ => []

theorem Accepts.length_le (h : Accepts cap log q) : q.queue.length ≤ cap := by
  induction h with
  | nil => exact Nat.zero_le cap
  | snoc _ ha ih =>
    cases ha with
    | push t xs room => simpa using room
    | claim t xs rest oldest none =>
      rw [oldest, List.length_append] at ih
      exact (Nat.le_add_left _ _).trans ih
    | got t xs held => exact ih
    | full t full => exact ih
    | empty t empty => exact ih

/-- items come out in the order they went in -/
theorem Accepts.order (h : Accepts cap log q) : pushed log = claimed log ++ q.queue := by
  induction h with
  | nil => rfl
  | snoc _ ha ih =>
    simp only [pushed, claimed, List.flatMap_append, List.flatMap_singleton] at ih ⊢
    cases ha with
    | push t xs room => rw [ih, List.append_nil, List.append_assoc]
    | claim t xs rest oldest none => rw [ih, oldest, List.append_nil, List.append_assoc]
    | got t xs held => simpa using ih
    | full t full => simpa using ih
    | empty t empty => simpa using ih

/-- a party has in hand what it claimed, but for the claim under way -/
theorem Accepts.hands (h : Accepts cap log q) (t : ℕ) : claimedBy t log = handed t log ++ q.held t := by
  induction h with
  | nil => rfl
  | snoc _ ha ih =>
    simp only [claimedBy, handed, List.flatMap_append, List.flatMap_singleton] at ih ⊢
    cases ha with
    | push u xs room => simpa using ih
    | claim u xs rest oldest none =>
      by_cases hu : u = t
      · subst hu
        rw [none, List.append_nil] at ih
        simp [ih]
      · simpa [hu, Function.update_of_ne (Ne.symm hu)] using ih
    | got u xs held =>
      by_cases hu : u = t
      · subst hu
        simpa [held] using ih
      · simpa [hu, Function.update_of_ne (Ne.symm hu)] using ih
    | full u full => simpa using ih
    | empty u empty => simpa using ih

end YouPipe.Fifo
