/-
The local deques of the pool's workers (`youpipe-st3/src/lifo.rs`). Each worker pushes to and pops from the end of its own deque; the
others steal from its head with `steal_and_pop`, the youngest stolen item in hand and the rest moved to the thief's own deque. The
position of the end is the number of pushes minus the number of pops; pops and thieves compete for one word that packs the number of
pops with the head a thief will leave behind.

One atomic access or one slot per step; what a worker reads of the counters that only it writes goes along with its next step. Counters
are `u32` words; each remembers in `moves` how far it moved, which no branch looks at. `items`, `hand` and `thief` say what the deques
stand for, and no branch looks at them either.
-/
import Mathlib.Tactic
import YouPipe.Core.Word
import YouPipe.Core.Window
import YouPipe.Core.Deques
import YouPipe.Core.Machine

namespace YouPipe.Lifo

open YouPipe.Ring YouPipe.Deques

/-- the values of `UnsignedShort` -/
def short : ℕ := 2 ^ 32

/-- `Worker::new`: the capacity for a least capacity up to `2 ^ 31` -/
def capacity (min : ℕ) : ℕ := Word.nextPowerOfTwo min

structure Count where
  word : ℕ
  moves : ℕ
deriving DecidableEq, Repr

namespace Count

/-- `wrapping_add` -/
def add (c : Count) (n : ℕ) : Count := ⟨(c.word + n) % short, c.moves + n⟩

/-- `wrapping_sub` -/
def sub (c d : Count) : Count := ⟨(c.word + short - d.word) % short, c.moves - d.moves⟩

/-- the `wrapping_sub` of two positions -/
def dist (c d : Count) : ℕ := (c.word + short - d.word) % short

end Count

variable {T : Type}

structure Queue (T : Type) where
  pushCount : Count
  /-- the upper half of `pop_count_and_head` -/
  popCount : Count
  /-- the lower half -/
  booked : Count
  head : Count
  buffer : ℕ → Option T

def Queue.tail (q : Queue T) : Count := q.pushCount.sub q.popCount

inductive Pc (T : Type)
  | idle
  /-- `push`: load `head` -/
  | pushFull (x : T)
  | pushWrite (x : T)
  | pushStore (x : T)
  /-- `pop`: load `pop_count_and_head` -/
  | popLoad
  | popCas (tail pop booked : Count)
  | popRead (tail : Count)
  /-- `steal_and_pop`, `is_likely_empty`: load `push_count` -/
  | likelyPush (j : ℕ)
  | likelyHead (j : ℕ) (push : Count)
  /-- load the `head` of the own deque -/
  | room (j : ℕ)
  /-- `book_items`: load `pop_count_and_head` -/
  | bookLoad (j room : ℕ)
  | bookHead (j room : ℕ) (pop booked : Count)
  | bookPush (j room : ℕ) (old pop booked : Count)
  | bookCas (j room : ℕ) (old pop booked : Count) (count : ℕ)
  /-- `transfer_items` has moved `k` of the items from `start` on; the last one is read -/
  | move (j : ℕ) (start : Count) (count k : ℕ)
  /-- store `push_count` -/
  | landPush (j : ℕ) (start : Count) (count : ℕ) (x : T)
  /-- store `head` -/
  | landHead (j : ℕ) (start : Count) (count : ℕ) (x : T)
deriving DecidableEq, Repr

def Pc.isIdle : Pc T → Bool
  | .idle => true
  | _ => false

structure St (T : Type) where
  queue : ℕ → Queue T
  pc : ℕ → Pc T
  items : ℕ → List T
  /-- what a worker has claimed -/
  hand : ℕ → List T
  /-- who steals from a deque -/
  thief : ℕ → Option ℕ
  log : List (Event T)
  /-- an item was written over another, or read where there is none -/
  fault : Bool

def init : St T where
  queue := fun _ => ⟨⟨0, 0⟩, ⟨0, 0⟩, ⟨0, 0⟩, ⟨0, 0⟩, fun _ => none⟩
  pc := fun _ => .idle
  items := fun _ => []
  hand := fun _ => []
  thief := fun _ => none
  log := []
  fault := false

namespace St

def goto (s : St T) (i : ℕ) (pc : Pc T) : St T := { s with pc := Function.update s.pc i pc }

def note (s : St T) (e : Event T) : St T := { s with log := s.log ++ [e] }

def setQueue (s : St T) (i : ℕ) (q : Queue T) : St T := { s with queue := Function.update s.queue i q }

def setItems (s : St T) (i : ℕ) (l : List T) : St T := { s with items := Function.update s.items i l }

def setHand (s : St T) (i : ℕ) (l : List T) : St T := { s with hand := Function.update s.hand i l }

def setThief (s : St T) (j : ℕ) (t : Option ℕ) : St T := { s with thief := Function.update s.thief j t }

/-- `write_at` -/
def writeAt (s : St T) (cap i : ℕ) (pos : ℕ) (x : T) : St T :=
  { s.setQueue i { s.queue i with buffer := Function.update (s.queue i).buffer (pos % cap) (some x) } with
    fault := s.fault || ((s.queue i).buffer (pos % cap)).isSome }

/-- `read_at` moves the item out -/
def takeAt (s : St T) (cap i : ℕ) (pos : ℕ) : St T :=
  s.setQueue i { s.queue i with buffer := Function.update (s.queue i).buffer (pos % cap) none }

end St

/-! ## The owner -/

section Steps

variable (cap : ℕ)

/-- the loop of `pop`: stop at an empty deque -/
def popNext (s : St T) (i : ℕ) (tail pop booked : Count) : St T :=
  if tail.word = booked.word then (s.goto i .idle).note (.empty i) else s.goto i (.popCas tail pop booked)

def ownStep (s : St T) (i : ℕ) (spurious : Bool) : Pc T → Option (St T)
  | .pushFull x =>
    let q := s.queue i
    if q.tail.dist q.head > cap - 1 then some ((s.goto i .idle).note (.full i)) else some (s.goto i (.pushWrite x))
  | .pushWrite x => some ((s.writeAt cap i (s.queue i).tail.word x).goto i (.pushStore x))
  | .pushStore x =>
    let q := s.queue i
    some ((((s.setQueue i { q with pushCount := q.pushCount.add 1 }).setItems i (s.items i ++ [x])).goto i .idle).note (.push i x))
  | .popLoad =>
    let q := s.queue i
    some (popNext s i q.tail q.popCount q.booked)
  | .popCas tail pop booked =>
    let q := s.queue i
    if q.popCount.word = pop.word ∧ q.booked.word = booked.word ∧ spurious = false then
      let s' := ((s.setQueue i { q with popCount := q.popCount.add 1 }).setItems i (s.items i).dropLast).goto i (.popRead tail)
      match (s.items i).getLast? with
      | some x => some ((s'.setHand i [x]).note (.pop i x))
      | none => some { s' with fault := true }
    else some (popNext s i tail pop q.booked)
  | .popRead tail =>
    let pos := (tail.word + short - 1) % short
    match (s.queue i).buffer (pos % cap) with
    | some x => some ((((s.takeAt cap i pos).setHand i []).goto i .idle).note (.got i x))
    | none => some { s.goto i .idle with fault := true }
  | _ => none

/-! ## The thief -/

/-- the loop of `book_items`: `Busy` while another thief is at work -/
def bookNext (s : St T) (i j room : ℕ) (old pop booked : Count) : St T :=
  if old.word = booked.word then s.goto i (.bookPush j room old pop booked) else s.goto i .idle

/-- `want` is what `count_fn` returns -/
def thiefStep (s : St T) (i want : ℕ) (spurious : Bool) : Pc T → Option (St T)
  | .likelyPush j => some (s.goto i (.likelyHead j (s.queue j).pushCount))
  | .likelyHead j push =>
    let q := s.queue j
    some (s.goto i (if (push.sub q.popCount).word = q.booked.word then .idle else .room j))
  | .room j =>
    let q := s.queue i
    some (s.goto i (.bookLoad j (cap - q.tail.dist q.head + 1)))
  | .bookLoad j room =>
    let q := s.queue j
    some (s.goto i (.bookHead j room q.popCount q.booked))
  | .bookHead j room pop booked => some (bookNext s i j room (s.queue j).head pop booked)
  | .bookPush j room old pop booked =>
    let available := ((s.queue j).pushCount.sub pop).dist booked
    let count := min (min want room) available
    if available = 0 then some ((s.goto i .idle).note (.bare i j))
    else if count = 0 then some (s.goto i .idle)
    else some (s.goto i (.bookCas j room old pop booked count))
  | .bookCas j room old pop booked count =>
    let q := s.queue j
    if q.popCount.word = pop.word ∧ q.booked.word = booked.word ∧ spurious = false then
      let s' := (s.setQueue j { q with booked := q.booked.add count }).setItems j ((s.items j).drop count)
      some ((((s'.setHand i ((s.items j).take count)).setThief j (some i)).goto i (.move j q.booked count 0)).note
        (.book i j ((s.items j).take count)))
    else some (bookNext s i j room old q.popCount q.booked)
  | .move j start count k =>
    let pos := (start.word + k) % short
    match (s.queue j).buffer (pos % cap) with
    | some x =>
      if k + 1 < count then
        let dest := ((s.queue i).tail.word + k) % short
        some (((s.takeAt cap j pos).writeAt cap i dest x).goto i (.move j start count (k + 1)))
      else some ((s.takeAt cap j pos).goto i (.landPush j start count x))
    | none => some { s.goto i .idle with fault := true }
  | .landPush j start count x =>
    let q := s.queue i
    let s' := (s.setQueue i { q with pushCount := q.pushCount.add (count - 1) }).setItems i (s.items i ++ (s.hand i).take (count - 1))
    some (((s'.setHand i ((s.hand i).drop (count - 1))).goto i (.landHead j start count x)).note (.land i ((s.hand i).take (count - 1))))
  | .landHead j start count x =>
    let s' := s.setQueue j { s.queue j with head := start.add count }
    some ((((s'.setHand i []).setThief j none).goto i .idle).note (.stolen i j x))
  | _ => none

/-! ## Runs -/

inductive Act (T : Type)
  | push (i : ℕ) (x : T)
  | pop (i : ℕ)
  | steal (i j : ℕ)
  | run (i want : ℕ) (spurious : Bool)
deriving DecidableEq, Repr

/-- a worker steals from the others only -/
def step (s : St T) : Act T → Option (St T)
  | .push i x => if (s.pc i).isIdle then some (s.goto i (.pushFull x)) else none
  | .pop i => if (s.pc i).isIdle then some (s.goto i .popLoad) else none
  | .steal i j => if (s.pc i).isIdle ∧ i ≠ j then some (s.goto i (.likelyPush j)) else none
  | .run i want spurious => (ownStep cap s i spurious (s.pc i)).or (thiefStep cap s i want spurious (s.pc i))

def run (s : St T) (acts : List (Act T)) : Option (St T) := acts.foldlM (step cap) s

end Steps

end YouPipe.Lifo
