/-
Bounded FIFO channels with counted handles, as the crossfire channels behave: a send needs room and reports closed only when
every receiver is gone; a receive takes the oldest item and reports closed only when every sender is gone and the queue is
empty.
-/
import Mathlib.Tactic

namespace YouPipe.Channel

structure Chan (T : Type) where
  queue : List T
  cap : ℕ
  senders : ℕ
  receivers : ℕ
deriving DecidableEq, Repr

namespace Chan

variable {T : Type}

/-- append an item -/
def push (c : Chan T) (x : T) : Chan T := { c with queue := c.queue ++ [x] }

/-- take the `m` oldest items -/
def take (c : Chan T) (m : ℕ) : Chan T := { c with queue := c.queue.drop m }

def dropSender (c : Chan T) : Chan T := { c with senders := c.senders - 1 }

/-- a send would have to wait -/
def full (c : Chan T) : Prop := c.cap ≤ c.queue.length

/-- a receive reports closed -/
def drained (c : Chan T) : Prop := c.senders = 0 ∧ c.queue = []

instance (c : Chan T) : Decidable c.full := inferInstanceAs (Decidable (_ ≤ _))

instance [DecidableEq T] (c : Chan T) : Decidable c.drained := inferInstanceAs (Decidable (_ ∧ _))

@[simp] theorem push_queue (c : Chan T) (x : T) : (c.push x).queue = c.queue ++ [x] := rfl

@[simp] theorem take_queue (c : Chan T) (m : ℕ) : (c.take m).queue = c.queue.drop m := rfl

@[simp] theorem dropSender_queue (c : Chan T) : c.dropSender.queue = c.queue := rfl

end Chan

end YouPipe.Channel
