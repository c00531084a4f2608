/-
The completion latch of the hybrid dispatcher (`CountLatch` in `pool/latch.rs`, the inject and wait part of `hybrid_dispatch`
and `ChunkJob::execute` in `builder/typed/fused.rs`).

One driver waits for `injected + reserve` chunks. Pool threads run the injected ones; the driver runs its inline chunk, which
the latch does not count, and then waits: off the pool it runs its reserve chunks between spins and ends at the mutex of a
`LockLatch`, on the pool it runs chunks it finds and sleeps through the pool's sleep protocol on a `CoreLatch`. A step is one
atomic operation. Condition variables may wake spuriously; in the pool any other waker may wake the driver, and the driver may
turn back from its sleep for reasons of its own.

The chunk that takes the counter to zero sets the inner latch; its place in `CountLatch::set` is the state's `setter`, and
`Setter.settled` says that it has made its last access to the latch, which lies in the driver's frame. `runs` lists who ran
which chunk, `sets` counts the sets of the inner latch, `underflow` records a decrement from zero.

Results: `hybrid_batch` (what the dispatcher arms a latch for is a batch of the machine) and, from `Inv`, `completion`, for every
batch and every order of steps.
-/
import Mathlib.Tactic
import YouPipe.Core.Machine
import YouPipe.Core.Tally
import YouPipe.Fused.Plan
import YouPipe.Pool.Sleep

namespace YouPipe.CountLatch

open YouPipe.Tally
open YouPipe.Pool (Latch)

/-! ## The machine -/

/-- the chunks that a latch is armed for; a latch of the stealing kind is armed without inline and reserve chunks -/
structure Batch where
  injected : ℕ
  reserve : ℕ
  participates : Bool
  stealing : Bool
  onPool : stealing = true → reserve = 0 ∧ participates = false
  nonempty : 0 < injected + reserve

/-- `pool_chunks` -/
def Batch.total (b : Batch) : ℕ := b.injected + b.reserve

/-- `OFF_POOL_SPIN_ITERS` -/
def offPoolSpinIters : ℕ := 4096

/-- who runs a chunk -/
inductive Who where
  | worker
  | driver
deriving DecidableEq, Repr

/-- how the body of a chunk ends -/
inductive Outcome where
  | ok
  | failed
  | panicked
deriving DecidableEq, Repr

/-- a counted chunk: not handed out, in the queue, in its body, before its decrement, behind it -/
inductive Chunk where
  | held
  | queued
  | running
  | ran
  | reported
deriving DecidableEq, Repr

/-- the last chunk in `CountLatch::set`: in `LockLatch::set`, or around `CoreLatch::set` and in the wake of the owner -/
inductive Setter where
  | idle
  | lock (i : ℕ)
  | store (i : ℕ)
  | notify (i : ℕ)
  | unlock (i : ℕ)
  | clone (i : ℕ)
  | swap (i : ℕ)
  | wake (i : ℕ)
  | check (i : ℕ)
  | release (i : ℕ) (woken : Bool)
  | tickle (i : ℕ)
  | finished
deriving DecidableEq, Repr

/-- the mutex of the `LockLatch`, or the sleep mutex of the owner; another waker holds it with the flag in hand or not -/
inductive Mutex where
  | free
  | driver
  | setter
  | other (looked : Option Bool)
deriving DecidableEq, Repr

/-- the driver -/
inductive Driver where
  | inject (k : ℕ)
  /-- the inline chunk -/
  | inline
  /-- at `try_work` -/
  | assist (spinsLeft : ℕ)
  /-- in the `execute` of a chunk -/
  | working (i : ℕ)
  /-- at the load of the counter after a chunk -/
  | worked
  /-- at the load of the counter with no chunk left -/
  | idle (spinsLeft : ℕ)
  /-- in the loop of `wait_spin` -/
  | spin (left : ℕ)
  /-- in `LockLatch::wait`: before its mutex, at the test of the flag, in `condvar.wait`, before the unlock -/
  | lock
  | test
  | parked
  | leave
  /-- in `wait_until` and `Sleep::sleep` -/
  | probe
  | find
  | getSleepy
  | sleepLock
  | fallAsleep
  | settle
  | waitLoop
  | waiting
  | relock
  | wakeUp
  | sleepUnlock
  | returned
deriving DecidableEq, Repr

structure St where
  counter : ℕ
  underflow : Bool
  chunk : ℕ → Chunk
  runs : List (ℕ × Who)
  failure : Bool
  setter : Setter
  sets : ℕ
  /-- the flag of the `LockLatch` -/
  flag : Bool
  /-- the state of the `CoreLatch` -/
  core : Latch
  /-- `is_blocked` of the owner -/
  blocked : Bool
  mutex : Mutex
  /-- other wakers between their unlock and their notification -/
  tickles : ℕ
  next : ℕ
  driver : Driver

def init (b : Batch) : St where
  counter := b.total
  underflow := false
  chunk := fun _ => .held
  runs := []
  failure := false
  setter := .idle
  sets := 0
  flag := false
  core := .unset
  blocked := false
  mutex := .free
  tickles := 0
  next := b.injected
  driver := .inject 0

/-- the entry of the wait -/
def waitEntry (b : Batch) : Driver :=
  if b.stealing then .probe else if 0 < b.reserve then .assist offPoolSpinIters else .spin offPoolSpinIters

def St.setChunk (s : St) (i : ℕ) (c : Chunk) : St := { s with chunk := Function.update s.chunk i c }

/-- a chunk's `execute` is entered -/
def St.start (s : St) (i : ℕ) (who : Who) : St := { s.setChunk i .running with runs := s.runs ++ [(i, who)] }

def Outcome.fails : Outcome → Bool
  | .ok => false
  | .failed => true
  | .panicked => true

/-- what the steps of the driver leave open -/
structure Choice where
  steal : Option ℕ
  turn : Bool
  outcome : Outcome
deriving DecidableEq, Repr

/-- the chunk whose `execute` is at the inner set -/
def Setter.chunk : Setter → Option ℕ
  | .lock i => some i
  | .store i => some i
  | .notify i => some i
  | .unlock i => some i
  | .clone i => some i
  | .swap i => some i
  | .wake i => some i
  | .check i => some i
  | .release i _ => some i
  | .tickle i => some i
  | _ => none

def driverStep (b : Batch) (s : St) (c : Choice) : Option St :=
  match s.driver with
  | .inject k =>
    if k < b.injected then some { s.setChunk k .queued with driver := .inject (k + 1) }
    else some { s with driver := if b.participates then .inline else waitEntry b }
  | .inline => some { s with failure := s.failure || c.outcome.fails, driver := waitEntry b }
  | .assist spinsLeft =>
    if s.next < b.total then some { s.start s.next .driver with next := s.next + 1, driver := .working s.next }
    else some { s with driver := .idle spinsLeft }
  | .working i =>
    if s.chunk i = .reported ∧ s.setter.chunk ≠ some i then
      some { s with driver := if b.stealing then .probe else .worked }
    else none
  | .worked => some { s with driver := if s.counter = 0 then .lock else .assist offPoolSpinIters }
  | .idle spinsLeft =>
    some { s with driver := if s.counter = 0 then .lock else if spinsLeft = 0 then .lock else .assist (spinsLeft - 1) }
  | .spin left => some { s with driver := if left = 0 then .lock else if s.counter = 0 then .lock else .spin (left - 1) }
  | .lock => if s.mutex = .free then some { s with mutex := .driver, driver := .test } else none
  | .test =>
    -- `condvar.wait` gives up the mutex and parks in one step
    if s.flag then some { s with driver := .leave } else some { s with mutex := .free, driver := .parked }
  | .parked => none
  | .leave => some { s with mutex := .free, driver := .returned }
  | .probe => some { s with driver := if s.core = .set then .returned else .find }
  | .find =>
    match c.steal with
    | some i =>
      if s.chunk i = .queued then some { s.start i .driver with driver := .working i } else none
    | none => some { s with driver := if c.turn then .getSleepy else .probe }
  | .getSleepy =>
    if s.core = .unset then some { s with core := .sleepy, driver := .sleepLock } else some { s with driver := .probe }
  | .sleepLock => if s.mutex = .free then some { s with mutex := .driver, driver := .fallAsleep } else none
  | .fallAsleep =>
    if s.core = .sleepy then some { s with core := .sleeping, driver := .settle } else some { s with driver := .sleepUnlock }
  | .settle =>
    -- the jobs event counter and the injector may turn the driver back
    if c.turn then some { s with driver := .wakeUp } else some { s with blocked := true, driver := .waitLoop }
  | .waitLoop =>
    if s.blocked then some { s with mutex := .free, driver := .waiting } else some { s with driver := .wakeUp }
  | .waiting => none
  | .relock => if s.mutex = .free then some { s with mutex := .driver, driver := .waitLoop } else none
  | .wakeUp => some { s with core := if s.core = .sleeping then .unset else s.core, driver := .sleepUnlock }
  | .sleepUnlock => some { s with mutex := .free, driver := .probe }
  | .returned => none

/-- a thread in a condition variable is notified, or wakes by itself -/
def Driver.woken : Driver → Driver
  | .parked => .lock
  | .waiting => .relock
  | d => d

def setterStep (s : St) : Option St :=
  match s.setter with
  | .idle => none
  | .lock i => if s.mutex = .free then some { s with mutex := .setter, setter := .store i } else none
  | .store i => some { s with flag := true, sets := s.sets + 1, setter := .notify i }
  | .notify i => some { s with driver := s.driver.woken, setter := .unlock i }
  | .unlock _ => some { s with mutex := .free, setter := .finished }
  | .clone i => some { s with setter := .swap i }
  | .swap i =>
    some { s with core := .set, sets := s.sets + 1, setter := if s.core = .sleeping then .wake i else .finished }
  | .wake i => if s.mutex = .free then some { s with mutex := .setter, setter := .check i } else none
  | .check i => some { s with blocked := false, setter := .release i s.blocked }
  | .release i woken => some { s with mutex := .free, setter := if woken then .tickle i else .finished }
  | .tickle _ => some { s with driver := s.driver.woken, setter := .finished }
  | .finished => none

/-- a step of another waker -/
inductive Other where
  | lock
  | check
  | release
  | tickle
deriving DecidableEq, Repr

def otherStep (s : St) : Other → Option St
  | .lock => if s.mutex = .free then some { s with mutex := .other none } else none
  | .check => if s.mutex = .other none then some { s with mutex := .other (some s.blocked), blocked := false } else none
  | .release =>
    match s.mutex with
    | .other (some woken) => some { s with mutex := .free, tickles := s.tickles + if woken then 1 else 0 }
    | _ => none
  | .tickle => if 0 < s.tickles then some { s with driver := s.driver.woken, tickles := s.tickles - 1 } else none

inductive Act where
  | driver (c : Choice)
  /-- a pool thread takes a chunk from the queue -/
  | start (i : ℕ)
  /-- the body of a chunk ends -/
  | finish (i : ℕ) (outcome : Outcome)
  /-- the decrement of `CountLatch::set` -/
  | report (i : ℕ)
  | setter
  | other (o : Other)
  | spurious
deriving DecidableEq, Repr

def step (b : Batch) (s : St) : Act → Option St
  | .driver c => driverStep b s c
  | .start i => if s.chunk i = .queued then some (s.start i .worker) else none
  | .finish i outcome =>
    if s.chunk i = .running then some { s.setChunk i .ran with failure := s.failure || outcome.fails } else none
  | .report i =>
    if s.chunk i = .ran then
      some { s.setChunk i .reported with
        counter := s.counter - 1
        underflow := s.underflow || decide (s.counter = 0)
        setter := if s.counter = 1 then (if b.stealing then .clone i else .lock i) else s.setter }
    else none
  | .setter => setterStep s
  | .other o => if b.stealing then otherStep s o else none
  | .spurious => some { s with driver := s.driver.woken }

def run (b : Batch) (s : St) (acts : List Act) : Option St := acts.foldlM (step b) s

/-- **the batches of the dispatcher**: `hybrid_dispatch` arms a latch of the stealing kind for a worker of the pool only when it
keeps no chunk for itself, and always for at least one chunk -/
theorem hybrid_batch {onPool : Bool} {mode : Fused.OnpoolHybrid} {n : ℕ} {plan : Fused.SplitPlan} {numThreads : ℕ}
    {driver : Option Fused.Chunk} {injected reserve : List Fused.Chunk} (hd : 1 ≤ plan.depth)
    (h : Fused.hybridLayout onPool mode n plan numThreads = .chunks driver injected reserve) :
    ∃ b : Batch, b.injected = injected.length ∧ b.reserve = reserve.length ∧ b.participates = driver.isSome ∧ b.stealing = onPool := by
  have hpos := Fused.hybridNumChunks_pos n plan numThreads
  by_cases hp : Fused.chunkSplits n plan numThreads = 0
  · have htwo := Fused.two_le_of_participates hd hp
    simp only [Fused.hybridLayout, hp, beq_self_eq_true, Bool.true_or, Bool.and_true, if_true] at h
    cases onPool with
    | true => simp at h
    | false =>
      simp only [Bool.false_eq_true, if_false, Fused.Layout.chunks.injEq] at h
      obtain ⟨rfl, rfl, rfl⟩ := h
      refine ⟨⟨_, _, _, false, by simp, ?_⟩, rfl, rfl, rfl, rfl⟩
      rw [← List.length_append, List.take_append_drop, Fused.length_poolChunks]
      omega
  · have hbeq : (Fused.chunkSplits n plan numThreads == 0) = false := by simpa using hp
    simp only [Fused.hybridLayout, hbeq, Bool.false_or, Bool.false_eq_true, if_false, Nat.sub_zero] at h
    split_ifs at h
    simp only [Fused.Layout.chunks.injEq] at h
    obtain ⟨rfl, rfl, rfl⟩ := h
    refine ⟨⟨_, _, _, onPool, fun _ => ⟨?_, rfl⟩, ?_⟩, rfl, rfl, rfl, rfl⟩
    · simp
    · rw [← List.length_append, List.take_append_drop, Fused.length_poolChunks]
      omega

/-! ## The chunks -/

namespace Chunk

/-- not yet reported -/
def pending : Chunk → Bool
  | .reported => false
  | _ => true

/-- its `execute` has been entered -/
def started : Chunk → Bool
  | .held => false
  | .queued => false
  | _ => true

end Chunk

/-- who has run which chunks -/
structure Runs (b : Batch) (s : St) : Prop where
  once : ∀ i, (s.runs.map Prod.fst).count i = if (s.chunk i).started then 1 else 0
  driver : ∀ i who, (i, who) ∈ s.runs → b.injected ≤ i → who = .driver
  queued : ∀ i, s.chunk i = .queued → i < b.injected
  outside : ∀ i, b.total ≤ i → s.chunk i = .held
  low : b.injected ≤ s.next
  high : s.next ≤ b.total
  /-- the driver takes the reserve in order -/
  next : ∀ i, b.injected ≤ i → i < b.total → (s.chunk i = .held ↔ s.next ≤ i)

section Chunks

variable {b : Batch} {s s' : St}

theorem Runs.frame (h : Runs b s) (hchunk : s'.chunk = s.chunk) (hruns : s'.runs = s.runs) (hnext : s'.next = s.next) : Runs b s' := by
  refine ⟨?_, ?_, ?_, ?_, ?_, ?_, ?_⟩
  · rw [hruns, hchunk]
    exact h.once
  · rw [hruns]
    exact h.driver
  · rw [hchunk]
    exact h.queued
  · rw [hchunk]
    exact h.outside
  · rw [hnext]
    exact h.low
  · rw [hnext]
    exact h.high
  · rw [hchunk, hnext]
    exact h.next

/-- a chunk on its way from its start to its report -/
theorem Runs.advance (h : Runs b s) {i : ℕ} {c : Chunk} (hold : (s.chunk i).started = true) (hc : c.started = true)
    (hchunk : s'.chunk = Function.update s.chunk i c) (hruns : s'.runs = s.runs) (hnext : s'.next = s.next) : Runs b s' := by
  have hheld : ∀ j, (Function.update s.chunk i c j = .held ↔ s.chunk j = .held) := by
    intro j
    by_cases hj : j = i
    · subst hj
      rw [Function.update_self]
      constructor
      · intro hh
        rw [hh] at hc
        cases hc
      · intro hh
        rw [hh] at hold
        cases hold
    · rw [Function.update_of_ne hj]
  refine ⟨?_, ?_, ?_, ?_, ?_, ?_, ?_⟩
  · intro j
    rw [hruns, hchunk, h.once j]
    by_cases hj : j = i
    · subst hj
      rw [Function.update_self, hold, hc]
    · rw [Function.update_of_ne hj]
  · rw [hruns]
    exact h.driver
  · intro j hq
    rw [hchunk] at hq
    by_cases hj : j = i
    · subst hj
      rw [Function.update_self] at hq
      rw [hq] at hc
      cases hc
    · rw [Function.update_of_ne hj] at hq
      exact h.queued j hq
  · intro j hj
    rw [hchunk, hheld]
    exact h.outside j hj
  · rw [hnext]
    exact h.low
  · rw [hnext]
    exact h.high
  · intro j hlow hhigh
    rw [hchunk, hheld, hnext]
    exact h.next j hlow hhigh

/-- a chunk is started -/
theorem Runs.start (h : Runs b s) {i : ℕ} {who : Who} {next : ℕ} (hold : (s.chunk i).started = false) (hi : i < b.total)
    (hwho : b.injected ≤ i → who = .driver) (hnext : next = if b.injected ≤ i then i + 1 else s.next)
    (hlast : b.injected ≤ i → s.next = i) : Runs b { s.start i who with next := next } := by
  have hlow := h.low
  have hhigh := h.high
  refine ⟨?_, ?_, ?_, ?_, ?_, ?_, ?_⟩
  · intro j
    have hj := h.once j
    simp only [St.start, St.setChunk, List.map_append, List.count_append, hj]
    by_cases hji : j = i
    · subst hji
      have hrun : Chunk.running.started = true := rfl
      simp [hold, hrun]
    · have hij : i ≠ j := Ne.symm hji
      simp [hji, hij]
  · intro j w hmem hj
    rcases List.mem_append.1 hmem with hmem | hmem
    · exact h.driver j w hmem hj
    · cases List.mem_singleton.1 hmem
      exact hwho hj
  · intro j hq
    by_cases hji : j = i
    · simp [St.start, St.setChunk, hji] at hq
    · exact h.queued j (by simpa [St.start, St.setChunk, hji] using hq)
  · intro j hj
    have hji : j ≠ i := by omega
    simpa [St.start, St.setChunk, hji] using h.outside j hj
  · dsimp only
    split_ifs at hnext <;> omega
  · dsimp only
    split_ifs at hnext <;> omega
  · intro j hj hjt
    have hold := h.next j hj hjt
    by_cases hji : j = i
    · subst hji
      rw [if_pos hj] at hnext
      simp [St.start, St.setChunk, hnext]
    · simp only [St.start, St.setChunk, Function.update_of_ne hji, hold]
      split_ifs at hnext with hi'
      · have := hlast hi'
        omega
      · omega

end Chunks

/-! ## The latch and the driver -/

namespace Setter

/-- belongs to the kind of the latch -/
def fits (stealing : Bool) : Setter → Bool
  | .idle => true
  | .finished => true
  | .lock _ => !stealing
  | .store _ => !stealing
  | .notify _ => !stealing
  | .unlock _ => !stealing
  | _ => stealing

/-- holds the mutex -/
def holds : Setter → Bool
  | .store _ => true
  | .notify _ => true
  | .unlock _ => true
  | .check _ => true
  | .release _ _ => true
  | _ => false

/-- the inner latch is set -/
def didSet : Setter → Bool
  | .notify _ => true
  | .unlock _ => true
  | .wake _ => true
  | .check _ => true
  | .release _ _ => true
  | .tickle _ => true
  | .finished => true
  | _ => false

/-- the last access to the latch is behind it: the unlock, or the swap -/
def settled : Setter → Bool
  | .wake _ => true
  | .check _ => true
  | .release _ _ => true
  | .tickle _ => true
  | .finished => true
  | _ => false

/-- a parked driver will still be notified -/
def mayNotify : Setter → Bool
  | .idle => true
  | .lock _ => true
  | .store _ => true
  | .notify _ => true
  | _ => false

/-- it has yet to look at the owner's flag -/
def willLook : Setter → Bool
  | .wake _ => true
  | .check _ => true
  | _ => false

/-- it has taken the owner's flag down and not yet notified it -/
def willTickle : Setter → Bool
  | .release _ woken => woken
  | .tickle _ => true
  | _ => false

end Setter

namespace Driver

def fits (stealing : Bool) : Driver → Bool
  | .inject _ => true
  | .inline => true
  | .working _ => true
  | .returned => true
  | .assist _ => !stealing
  | .worked => !stealing
  | .idle _ => !stealing
  | .spin _ => !stealing
  | .lock => !stealing
  | .test => !stealing
  | .parked => !stealing
  | .leave => !stealing
  | _ => stealing

def holds : Driver → Bool
  | .test => true
  | .leave => true
  | .fallAsleep => true
  | .settle => true
  | .waitLoop => true
  | .wakeUp => true
  | .sleepUnlock => true
  | _ => false

/-- behind `fall_asleep` and before the end of `wake_up` -/
def slept : Driver → Bool
  | .settle => true
  | .waitLoop => true
  | .waiting => true
  | .relock => true
  | .wakeUp => true
  | _ => false

/-- in the loop around `condvar.wait` -/
def inLoop : Driver → Bool
  | .waitLoop => true
  | .waiting => true
  | .relock => true
  | _ => false

/-- on the way to the park, and not turning back -/
def falling : Driver → Bool
  | .settle => true
  | .waitLoop => true
  | .waiting => true
  | .relock => true
  | _ => false

/-- the latch was seen set under its mutex -/
def left : Driver → Bool
  | .leave => true
  | .returned => true
  | _ => false

/-- past the loops that run reserve chunks -/
def ending : Driver → Bool
  | .idle _ => true
  | .spin _ => true
  | .lock => true
  | .test => true
  | .parked => true
  | .leave => true
  | _ => false

end Driver

/-- the counter against the chunks and the setter -/
structure Counts (b : Batch) (s : St) : Prop where
  tally : tally b.total Chunk.pending s.chunk = s.counter
  sound : s.underflow = false
  zero : s.setter = .idle ↔ 0 < s.counter
  sets : s.sets = s.setter.didSet.toNat

/-- everyone is at a place of the latch's kind, and the mutex has its holder -/
structure Places (b : Batch) (s : St) : Prop where
  setter : s.setter.fits b.stealing = true
  driver : s.driver.fits b.stealing = true
  setterHolds : s.mutex = .setter ↔ s.setter.holds = true
  driverHolds : s.mutex = .driver ↔ s.driver.holds = true

/-- the `LockLatch` -/
structure LockWaits (b : Batch) (s : St) : Prop where
  flag : s.flag = s.setter.didSet
  ending : s.driver.ending = true → s.next = b.total ∨ s.counter = 0
  left : s.driver.left = true → s.setter = .finished
  parked : s.driver = .parked → s.setter.mayNotify = true

/-- the `CoreLatch` and the sleep of its owner -/
structure CoreWaits (s : St) : Prop where
  core : s.core = .set ↔ s.setter.didSet = true
  slept : s.driver.slept = true → s.core = .sleeping ∨ s.core = .set
  returned : s.driver = .returned → s.setter.didSet = true
  blocked : s.blocked = true → s.driver.inLoop = true
  /-- a driver that falls asleep on a set latch is seen by the setter, or its flag is down again -/
  falling : s.core = .set → s.driver.falling = true → s.setter.willLook = true ∨ (s.driver.inLoop = true ∧ s.blocked = false)
  /-- a driver in `condvar.wait` with its flag down has a notification on the way -/
  notified : s.driver = .waiting → s.blocked = false →
    s.setter.willTickle = true ∨ s.mutex = .other (some true) ∨ 0 < s.tickles

structure Inv (b : Batch) (s : St) : Prop where
  runs : Runs b s
  /-- what the injection has not come to -/
  handed : ∀ k, s.driver = .inject k → ∀ i, k ≤ i → i < b.injected → s.chunk i = .held
  counts : Counts b s
  places : Places b s
  lock : b.stealing = false → LockWaits b s
  core : b.stealing = true → CoreWaits s

section Steps

variable {b : Batch} {s s' : St}

theorem init_inv (b : Batch) : Inv b (init b) := by
  refine ⟨⟨?_, ?_, ?_, ?_, le_rfl, Nat.le_add_right _ _, ?_⟩, fun _ _ _ _ _ => rfl, ⟨?_, rfl, ?_, rfl⟩, ⟨rfl, rfl, by simp [init, Setter.holds], ?_⟩, ?_, ?_⟩
  · intro i
    rfl
  · intro i who hmem
    cases hmem
  · intro i hq
    cases hq
  · intro i _
    rfl
  · intro i hlow _
    exact ⟨fun _ => hlow, fun _ => rfl⟩
  · exact tally_eq_of_forall fun i _ => rfl
  · exact ⟨fun _ => b.nonempty, fun _ => rfl⟩
  · simp [init, Driver.holds]
  · intro _
    exact ⟨rfl, by simp [init, Driver.ending], by simp [init, Driver.left], by simp [init]⟩
  · intro _
    exact ⟨by simp [init, Setter.didSet], by simp [init, Driver.slept], by simp [init], by simp [init], by simp [init], by simp [init]⟩

/-! ## Wake-ups -/

/-- a notification moves the driver from the condition variable to its mutex, and does nothing else to it -/
theorem woken_spec (d : Driver) : (∀ stealing, d.woken.fits stealing = d.fits stealing) ∧ d.woken.holds = d.holds ∧
    d.woken.slept = d.slept ∧ d.woken.inLoop = d.inLoop ∧ d.woken.falling = d.falling ∧ d.woken.left = d.left ∧
    d.woken.ending = d.ending ∧ (d.woken = .returned ↔ d = .returned) ∧ d.woken ≠ .parked ∧ d.woken ≠ .waiting := by
  cases d <;>
    simp [Driver.woken, Driver.fits, Driver.holds, Driver.slept, Driver.inLoop, Driver.falling, Driver.left, Driver.ending]

theorem Places.woken (h : Places b s) : Places b { s with driver := s.driver.woken } := by
  obtain ⟨hfits, hholds, -⟩ := woken_spec s.driver
  exact ⟨h.setter, (hfits _).trans h.driver, h.setterHolds, by rw [hholds]; exact h.driverHolds⟩

theorem LockWaits.woken (h : LockWaits b s) : LockWaits b { s with driver := s.driver.woken } := by
  obtain ⟨-, -, -, -, -, hleft, hending, -, hparked, -⟩ := woken_spec s.driver
  exact ⟨h.flag, by rw [hending]; exact h.ending, by rw [hleft]; exact h.left, fun hp => absurd hp hparked⟩

theorem CoreWaits.woken (h : CoreWaits s) : CoreWaits { s with driver := s.driver.woken } := by
  obtain ⟨-, -, hslept, hloop, hfalling, -, -, hreturned, -, hwaiting⟩ := woken_spec s.driver
  refine ⟨h.core, by rw [hslept]; exact h.slept, ?_, by rw [hloop]; exact h.blocked, ?_, fun hw => absurd hw hwaiting⟩
  · intro hr
    exact h.returned (hreturned.1 hr)
  · rw [hfalling, hloop]
    exact h.falling

/-! ## The setter -/

/-- the setter moves on, in or out of its critical section as before -/
theorem Places.setterGoto (h : Places b s) (hdriver : s'.driver = s.driver) (hmutex : s'.mutex = s.mutex)
    (hfits : s'.setter.fits b.stealing = true) (hholds : s'.setter.holds = s.setter.holds) : Places b s' := by
  refine ⟨hfits, by rw [hdriver]; exact h.driver, ?_, ?_⟩
  · rw [hmutex, hholds]
    exact h.setterHolds
  · rw [hmutex, hdriver]
    exact h.driverHolds

/-- the setter takes the mutex -/
theorem Places.setterTakes (h : Places b s) (hfree : s.mutex = .free) (hdriver : s'.driver = s.driver) (hmutex : s'.mutex = .setter)
    (hfits : s'.setter.fits b.stealing = true) (hholds : s'.setter.holds = true) : Places b s' := by
  have hd := h.driverHolds
  rw [hfree] at hd
  refine ⟨hfits, by rw [hdriver]; exact h.driver, by simp [hmutex, hholds], ?_⟩
  rw [hmutex, hdriver]
  simpa using hd

/-- the setter lets the mutex go -/
theorem Places.setterGives (h : Places b s) (hold : s.setter.holds = true) (hdriver : s'.driver = s.driver)
    (hmutex : s'.mutex = .free) (hfits : s'.setter.fits b.stealing = true) (hholds : s'.setter.holds = false) : Places b s' := by
  have hd := h.driverHolds
  rw [h.setterHolds.2 hold] at hd
  refine ⟨hfits, by rw [hdriver]; exact h.driver, by simp [hmutex, hholds], ?_⟩
  rw [hmutex, hdriver]
  simpa using hd

theorem setterStep_places (h : Places b s) (hs : setterStep s = some s') : Places b s' := by
  have hfits := h.setter
  cases hset : s.setter with
  | idle | finished => simp [setterStep, hset] at hs
  | lock i | wake i =>
    rw [hset] at hfits
    simp only [setterStep, hset] at hs
    split_ifs at hs with hfree
    cases hs
    exact h.setterTakes hfree rfl rfl hfits rfl
  | store i | clone i =>
    rw [hset] at hfits
    simp only [setterStep, hset] at hs
    cases hs
    exact h.setterGoto rfl rfl hfits (by rw [hset]; rfl)
  | notify i =>
    rw [hset] at hfits
    simp only [setterStep, hset] at hs
    cases hs
    exact h.woken.setterGoto rfl rfl hfits (by rw [hset]; rfl)
  | unlock i =>
    simp only [setterStep, hset] at hs
    cases hs
    exact h.setterGives (by rw [hset]; rfl) rfl rfl rfl rfl
  | swap i =>
    rw [hset] at hfits
    simp only [setterStep, hset] at hs
    cases hs
    refine h.setterGoto rfl rfl ?_ ?_
    · dsimp only
      split_ifs
      · exact hfits
      · rfl
    · rw [hset]
      dsimp only
      split_ifs <;> rfl
  | check i =>
    rw [hset] at hfits
    simp only [setterStep, hset] at hs
    cases hs
    exact h.setterGoto rfl rfl hfits (by rw [hset]; rfl)
  | release i woken =>
    rw [hset] at hfits
    simp only [setterStep, hset] at hs
    cases hs
    refine h.setterGives (by rw [hset]; rfl) rfl rfl ?_ ?_
    · dsimp only
      split_ifs
      · exact hfits
      · rfl
    · dsimp only
      split_ifs <;> rfl
  | tickle i =>
    simp only [setterStep, hset] at hs
    cases hs
    exact h.woken.setterGoto rfl rfl rfl (by rw [hset]; rfl)

/-- the steps of `LockLatch::set`: whoever is parked in front of the notification is woken by it -/
theorem setterStep_lock (hp : Places b s) (hb : b.stealing = false) (h : LockWaits b s) (hs : setterStep s = some s') :
    LockWaits b s' := by
  have hfits := hp.setter
  have hflag := h.flag
  have hleft := h.left
  have hparked := h.parked
  rw [hb] at hfits
  cases hset : s.setter with
  | idle | finished => simp [setterStep, hset] at hs
  | clone i | swap i | wake i | check i | release i woken | tickle i =>
    rw [hset] at hfits
    cases hfits
  | lock i =>
    simp only [setterStep, hset] at hs
    split_ifs at hs
    cases hs
    rw [hset] at hflag hleft hparked
    exact ⟨hflag, h.ending, fun hl => absurd (hleft hl) (by simp), hparked⟩
  | store i =>
    simp only [setterStep, hset] at hs
    cases hs
    rw [hset] at hleft hparked
    exact ⟨rfl, h.ending, fun hl => absurd (hleft hl) (by simp), hparked⟩
  | notify i =>
    simp only [setterStep, hset] at hs
    cases hs
    have hw := h.woken
    rw [hset] at hflag
    refine ⟨hflag, hw.ending, ?_, fun hl => absurd hl (woken_spec s.driver).2.2.2.2.2.2.2.2.1⟩
    intro hl
    have hno := hw.left hl
    rw [hset] at hno
    cases hno
  | unlock i =>
    simp only [setterStep, hset] at hs
    cases hs
    rw [hset] at hflag hparked
    exact ⟨hflag, h.ending, fun _ => rfl, fun hl => absurd (hparked hl) (by simp [Setter.mayNotify])⟩

theorem Driver.inLoop_of_falling {d : Driver} (h : d.falling = true) (hno : d.holds = false) : d.inLoop = true := by
  cases d <;> simp_all [Driver.falling, Driver.holds, Driver.inLoop]

theorem Driver.slept_of_falling {d : Driver} (h : d.falling = true) : d.slept = true := by
  cases d <;> simp_all [Driver.falling, Driver.slept]

/-- the steps around `CoreLatch::set`: a driver that had fallen asleep is looked up, and woken if its flag is up -/
theorem setterStep_core (hp : Places b s) (hb : b.stealing = true) (h : CoreWaits s) (hs : setterStep s = some s') : CoreWaits s' := by
  have hfits := hp.setter
  have hcore := h.core
  have hreturned := h.returned
  have hfalling := h.falling
  have hnotified := h.notified
  rw [hb] at hfits
  cases hset : s.setter with
  | idle | finished => simp [setterStep, hset] at hs
  | lock i | store i | notify i | unlock i =>
    rw [hset] at hfits
    cases hfits
  | clone i =>
    simp only [setterStep, hset] at hs
    cases hs
    rw [hset] at hcore hreturned hfalling hnotified
    exact ⟨hcore, h.slept, hreturned, h.blocked, hfalling, hnotified⟩
  | swap i =>
    simp only [setterStep, hset] at hs
    cases hs
    rw [hset] at hcore hnotified
    have hset' : (if s.core = .sleeping then Setter.wake i else .finished).didSet = true := by
      split_ifs <;> rfl
    refine ⟨by simp [hset'], fun _ => Or.inr rfl, fun _ => hset', h.blocked, ?_, ?_⟩
    · intro _ hf
      rcases h.slept (Driver.slept_of_falling hf) with hsleeping | hno
      · left
        simp only [hsleeping, if_true]
        rfl
      · have := hcore.1 hno
        cases this
    · intro hw hbl
      rcases hnotified hw hbl with hno | ht
      · cases hno
      · exact Or.inr ht
  | wake i =>
    simp only [setterStep, hset] at hs
    split_ifs at hs with hfree
    cases hs
    rw [hset] at hcore hreturned hfalling hnotified
    refine ⟨hcore, h.slept, hreturned, h.blocked, hfalling, ?_⟩
    intro hw hbl
    rcases hnotified hw hbl with hno | hno | ht
    · cases hno
    · rw [hfree] at hno
      cases hno
    · exact Or.inr (Or.inr ht)
  | check i =>
    simp only [setterStep, hset] at hs
    cases hs
    have hholds := hp.driverHolds
    rw [hp.setterHolds.2 (by rw [hset]; rfl)] at hholds
    rw [hset] at hcore hreturned hnotified
    refine ⟨hcore, h.slept, hreturned, by simp, ?_, ?_⟩
    · -- the mutex is the setter's, so the driver is in its wait
      intro _ hf
      exact Or.inr ⟨Driver.inLoop_of_falling hf (by simpa using hholds), rfl⟩
    · intro hw _
      by_cases hbl : s.blocked = true
      · exact Or.inl hbl
      · rcases hnotified hw (by simpa using hbl) with hno | ht
        · cases hno
        · exact Or.inr ht
  | release i woken =>
    simp only [setterStep, hset] at hs
    cases hs
    have hmutex := hp.setterHolds.2 (by rw [hset]; rfl)
    rw [hset] at hcore hreturned hfalling hnotified
    have hset' : (if woken then Setter.tickle i else .finished).didSet = true := by
      split_ifs <;> rfl
    refine ⟨by simp [hset', hcore.2 rfl], h.slept, fun _ => hset', h.blocked, ?_, ?_⟩
    · intro hc hf
      rcases hfalling hc hf with hno | hdown
      · cases hno
      · exact Or.inr hdown
    · intro hw hbl
      rcases hnotified hw hbl with hwoken | hno | ht
      · left
        simp only [Setter.willTickle] at hwoken
        simp only [hwoken, if_true]
        rfl
      · rw [hmutex] at hno
        cases hno
      · exact Or.inr (Or.inr ht)
  | tickle i =>
    simp only [setterStep, hset] at hs
    cases hs
    have hw := h.woken
    rw [hset] at hcore
    refine ⟨hcore, hw.slept, fun _ => rfl, hw.blocked, ?_, ?_⟩
    · intro hc hf
      rcases hw.falling hc hf with hno | hdown
      · dsimp only at hno
        rw [hset] at hno
        cases hno
      · exact Or.inr hdown
    · intro hwait
      exact absurd hwait (woken_spec s.driver).2.2.2.2.2.2.2.2.2

theorem setterStep_counts (h : Counts b s) (hs : setterStep s = some s') : Counts b s' := by
  have hzero := h.zero
  have hsets := h.sets
  cases hset : s.setter with
  | idle | finished => simp [setterStep, hset] at hs
  | lock i | wake i =>
    simp only [setterStep, hset] at hs
    split_ifs at hs
    cases hs
    rw [hset] at hzero hsets
    exact ⟨h.tally, h.sound, by simpa using hzero, hsets⟩
  | store i =>
    simp only [setterStep, hset] at hs
    cases hs
    rw [hset] at hzero hsets
    exact ⟨h.tally, h.sound, by simpa using hzero, by dsimp only; rw [hsets]; rfl⟩
  | swap i =>
    simp only [setterStep, hset] at hs
    cases hs
    rw [hset] at hzero hsets
    refine ⟨h.tally, h.sound, ?_, ?_⟩
    · dsimp only
      split_ifs <;> simpa using hzero
    · dsimp only
      rw [hsets]
      split_ifs <;> rfl
  | release i woken =>
    simp only [setterStep, hset] at hs
    cases hs
    rw [hset] at hzero hsets
    refine ⟨h.tally, h.sound, ?_, ?_⟩
    · dsimp only
      split_ifs <;> simpa using hzero
    · dsimp only
      rw [hsets]
      split_ifs <;> rfl
  | notify i | unlock i | clone i | check i | tickle i =>
    simp only [setterStep, hset] at hs
    cases hs
    rw [hset] at hzero hsets
    exact ⟨h.tally, h.sound, by simpa using hzero, hsets⟩

theorem woken_inject (d : Driver) (k : ℕ) : d.woken = .inject k ↔ d = .inject k := by
  cases d <;> simp [Driver.woken]

theorem setterStep_chunks (hs : setterStep s = some s') : s'.chunk = s.chunk ∧ s'.runs = s.runs ∧ s'.next = s.next ∧
    (s'.driver = s.driver ∨ s'.driver = s.driver.woken) := by
  cases hset : s.setter with
  | idle | finished => simp [setterStep, hset] at hs
  | lock i | wake i =>
    simp only [setterStep, hset] at hs
    split_ifs at hs
    cases hs
    exact ⟨rfl, rfl, rfl, Or.inl rfl⟩
  | store i | unlock i | clone i | swap i | check i | release i woken =>
    simp only [setterStep, hset] at hs
    cases hs
    exact ⟨rfl, rfl, rfl, Or.inl rfl⟩
  | notify i | tickle i =>
    simp only [setterStep, hset] at hs
    cases hs
    exact ⟨rfl, rfl, rfl, Or.inr rfl⟩

theorem Inv.handed_frame (h : Inv b s) (hchunk : s'.chunk = s.chunk) (hdriver : s'.driver = s.driver ∨ s'.driver = s.driver.woken)
    (k : ℕ) (hk : s'.driver = .inject k) (i : ℕ) (hi : k ≤ i) (hlt : i < b.injected) : s'.chunk i = .held := by
  rw [hchunk]
  refine h.handed k ?_ i hi hlt
  rcases hdriver with hd | hd
  · exact hd.symm.trans hk
  · exact (woken_inject _ _).1 (hd.symm.trans hk)

theorem setterStep_inv (h : Inv b s) (hs : setterStep s = some s') : Inv b s' := by
  obtain ⟨hchunk, hruns, hnext, hdriver⟩ := setterStep_chunks hs
  exact ⟨h.runs.frame hchunk hruns hnext, h.handed_frame hchunk hdriver, setterStep_counts h.counts hs, setterStep_places h.places hs,
    fun hb => setterStep_lock h.places hb (h.lock hb) hs, fun hb => setterStep_core h.places hb (h.core hb) hs⟩

/-! ## Other wakers -/

/-- another waker touches the mutex, the owner's flag and its own notifications; neither the setter nor the driver has the mutex
before or after -/
theorem Inv.otherGoto (h : Inv b s) (hb : b.stealing = true) {mutex : Mutex} {blocked : Bool} {tickles : ℕ}
    (hold : s.mutex ≠ .setter ∧ s.mutex ≠ .driver) (hnew : mutex ≠ .setter ∧ mutex ≠ .driver)
    (hwaits : CoreWaits { s with mutex := mutex, blocked := blocked, tickles := tickles }) :
    Inv b { s with mutex := mutex, blocked := blocked, tickles := tickles } := by
  have hset : s.setter.holds = false := by simpa [hold.1] using h.places.setterHolds
  have hdri : s.driver.holds = false := by simpa [hold.2] using h.places.driverHolds
  refine ⟨h.runs.frame rfl rfl rfl, h.handed, ⟨h.counts.tally, h.counts.sound, h.counts.zero, h.counts.sets⟩,
    ⟨h.places.setter, h.places.driver, by simp [hnew.1, hset], by simp [hnew.2, hdri]⟩, fun hno => ?_, fun _ => hwaits⟩
  rw [hb] at hno
  cases hno

theorem otherStep_inv {o : Other} (h : Inv b s) (hb : b.stealing = true) (hs : otherStep s o = some s') : Inv b s' := by
  have hc := h.core hb
  have hp := h.places
  cases o with
  | lock =>
    simp only [otherStep] at hs
    split_ifs at hs with hfree
    cases hs
    refine h.otherGoto hb (by simp [hfree]) (by simp) ⟨hc.core, hc.slept, hc.returned, hc.blocked, hc.falling, ?_⟩
    intro hw hbl
    rcases hc.notified hw hbl with hs | hno | ht
    · exact Or.inl hs
    · rw [hfree] at hno
      cases hno
    · exact Or.inr (Or.inr ht)
  | check =>
    simp only [otherStep] at hs
    split_ifs at hs with hm
    cases hs
    have hdri : s.driver.holds = false := by simpa [hm] using hp.driverHolds
    refine h.otherGoto hb (by simp [hm]) (by simp) ⟨hc.core, hc.slept, hc.returned, by simp, ?_, ?_⟩
    · intro _ hf
      exact Or.inr ⟨Driver.inLoop_of_falling hf hdri, rfl⟩
    · intro hw _
      by_cases hbl : s.blocked = true
      · exact Or.inr (Or.inl (by simp [hbl]))
      · rcases hc.notified hw (by simpa using hbl) with hs | hno | ht
        · exact Or.inl hs
        · rw [hm] at hno
          cases hno
        · exact Or.inr (Or.inr ht)
  | release =>
    simp only [otherStep] at hs
    split at hs
    · next woken hm =>
      cases hs
      refine h.otherGoto hb (by simp [hm]) (by simp) ⟨hc.core, hc.slept, hc.returned, hc.blocked, hc.falling, ?_⟩
      intro hw hbl
      rcases hc.notified hw hbl with hs | hwoken | ht
      · exact Or.inl hs
      · rw [hm] at hwoken
        cases hwoken
        exact Or.inr (Or.inr (by simp))
      · exact Or.inr (Or.inr (by dsimp only; omega))
    · cases hs
  | tickle =>
    simp only [otherStep] at hs
    split_ifs at hs
    cases hs
    have hw := hc.woken
    exact ⟨h.runs.frame rfl rfl rfl, h.handed_frame rfl (Or.inr rfl), ⟨h.counts.tally, h.counts.sound, h.counts.zero, h.counts.sets⟩,
      ⟨hp.setter, hp.woken.driver, hp.setterHolds, hp.woken.driverHolds⟩, fun hno => absurd (hno.symm.trans hb) (by simp),
      fun _ => ⟨hw.core, hw.slept, hw.returned, hw.blocked, hw.falling,
        fun hwait => absurd hwait (woken_spec s.driver).2.2.2.2.2.2.2.2.2⟩⟩

/-! ## The chunks' steps -/

theorem Runs.lt_total (h : Runs b s) {i : ℕ} (hi : s.chunk i ≠ .held) : i < b.total := by
  by_contra hge
  exact hi (h.outside i (by omega))

/-- a step of a chunk that the latch does not see -/
theorem Inv.setChunk (h : Inv b s) {i : ℕ} {c : Chunk} {runs : List (ℕ × Who)} {failure : Bool} (hi : s.chunk i ≠ .held)
    (hpending : c.pending = (s.chunk i).pending) (hruns : Runs b { s.setChunk i c with runs := runs, failure := failure }) :
    Inv b { s.setChunk i c with runs := runs, failure := failure } := by
  refine ⟨hruns, ?_, ⟨?_, h.counts.sound, h.counts.zero, h.counts.sets⟩,
    ⟨h.places.setter, h.places.driver, h.places.setterHolds, h.places.driverHolds⟩,
    fun hb => ⟨(h.lock hb).flag, (h.lock hb).ending, (h.lock hb).left, (h.lock hb).parked⟩,
    fun hb => ⟨(h.core hb).core, (h.core hb).slept, (h.core hb).returned, (h.core hb).blocked, (h.core hb).falling,
      (h.core hb).notified⟩⟩
  · intro k hk j hj hlt
    have hheld := h.handed k hk j hj hlt
    have hji : j ≠ i := fun hji => hi (hji ▸ hheld)
    simpa only [St.setChunk, Function.update_of_ne hji] using hheld
  · have hmove := tally_update (h.runs.lt_total hi) Chunk.pending s.chunk c
    rw [hpending, h.counts.tally] at hmove
    exact Nat.add_right_cancel hmove

theorem report_inv {i : ℕ} (h : Inv b s) (hi : s.chunk i = .ran) :
    Inv b { s.setChunk i .reported with
      counter := s.counter - 1
      underflow := s.underflow || decide (s.counter = 0)
      setter := if s.counter = 1 then (if b.stealing then .clone i else .lock i) else s.setter } := by
  have hmove := tally_update (h.runs.lt_total (by rw [hi]; decide)) Chunk.pending s.chunk .reported
  rw [hi, h.counts.tally] at hmove
  simp only [Chunk.pending, Bool.toNat_true, Bool.toNat_false, Nat.add_zero] at hmove
  have hpos : 0 < s.counter := by omega
  have hidle := h.counts.zero.2 hpos
  have hsets := h.counts.sets
  have hp := h.places
  rw [hidle] at hsets
  -- the setter goes from idle to its first place, where it has done nothing yet
  have hfirst : ∀ x, x = (if s.counter = 1 then (if b.stealing then Setter.clone i else .lock i) else s.setter) →
      x.fits b.stealing = true ∧ x.holds = false ∧ x.didSet = false ∧ x.willLook = false ∧ x.willTickle = false ∧
        (b.stealing = false → x.mayNotify = true) ∧ (x = .idle ↔ s.counter ≠ 1) := by
    intro x hx
    rw [hidle] at hx
    split_ifs at hx with h1 hb
    · simp [hx, hb, h1, Setter.fits, Setter.holds, Setter.didSet, Setter.willLook, Setter.willTickle]
    · simp [hx, hb, h1, Setter.fits, Setter.holds, Setter.didSet, Setter.willLook, Setter.willTickle, Setter.mayNotify]
    · simp [hx, h1, Setter.fits, Setter.holds, Setter.didSet, Setter.willLook, Setter.willTickle, Setter.mayNotify]
  obtain ⟨hfits, hholds, hset, hlook, htickle, hnotify, hiff⟩ := hfirst _ rfl
  refine ⟨h.runs.advance (by rw [hi]; rfl) rfl rfl rfl rfl, ?_, ⟨?_, ?_, ?_, ?_⟩, ?_, ?_, ?_⟩
  · intro k hk j hj hlt
    have hheld := h.handed k hk j hj hlt
    have hji : j ≠ i := by
      rintro rfl
      rw [hi] at hheld
      cases hheld
    change Function.update s.chunk i .reported j = .held
    rw [Function.update_of_ne hji]
    exact hheld
  · change tally b.total Chunk.pending (Function.update s.chunk i .reported) = s.counter - 1
    omega
  · simp [h.counts.sound]
    omega
  · dsimp only
    rw [hiff]
    omega
  · dsimp only
    rw [hset]
    exact hsets
  · have hold : s.setter.holds = false := by rw [hidle]; rfl
    exact hp.setterGoto rfl rfl hfits (hholds.trans hold.symm)
  · intro hb
    have hl := h.lock hb
    refine ⟨?_, ?_, ?_, ?_⟩
    · have hflag := hl.flag
      rw [hidle] at hflag
      exact hflag.trans hset.symm
    · intro he
      rcases hl.ending he with hn | h0
      · exact Or.inl hn
      · omega
    · intro hleft
      have hno := hl.left hleft
      rw [hidle] at hno
      cases hno
    · exact fun _ => hnotify hb
  · intro hb
    have hc := h.core hb
    have hcore := hc.core
    have hreturned := hc.returned
    have hnotified := hc.notified
    rw [hidle] at hcore hreturned hnotified
    refine ⟨?_, hc.slept, ?_, hc.blocked, ?_, ?_⟩
    · dsimp only
      rw [hset]
      exact hcore
    · intro hr
      cases hreturned hr
    · intro hno
      cases hcore.1 hno
    · intro hw hbl
      rcases hnotified hw hbl with hno | ht
      · cases hno
      · exact Or.inr ht

/-! ## The driver -/

theorem Places.driverGoto (h : Places b s) (hsetter : s'.setter = s.setter) (hmutex : s'.mutex = s.mutex)
    (hfits : s'.driver.fits b.stealing = true) (hholds : s'.driver.holds = s.driver.holds) : Places b s' := by
  refine ⟨by rw [hsetter]; exact h.setter, hfits, ?_, ?_⟩
  · rw [hmutex, hsetter]
    exact h.setterHolds
  · rw [hmutex, hholds]
    exact h.driverHolds

theorem Places.driverTakes (h : Places b s) (hfree : s.mutex = .free) (hsetter : s'.setter = s.setter) (hmutex : s'.mutex = .driver)
    (hfits : s'.driver.fits b.stealing = true) (hholds : s'.driver.holds = true) : Places b s' := by
  have hx := h.setterHolds
  rw [hfree] at hx
  refine ⟨by rw [hsetter]; exact h.setter, hfits, ?_, by simp [hmutex, hholds]⟩
  rw [hmutex, hsetter]
  simpa using hx

theorem Places.driverGives (h : Places b s) (hold : s.driver.holds = true) (hsetter : s'.setter = s.setter)
    (hmutex : s'.mutex = .free) (hfits : s'.driver.fits b.stealing = true) (hholds : s'.driver.holds = false) : Places b s' := by
  have hx := h.setterHolds
  rw [h.driverHolds.2 hold] at hx
  refine ⟨by rw [hsetter]; exact h.setter, hfits, ?_, by simp [hmutex, hholds]⟩
  rw [hmutex, hsetter]
  simpa using hx

/-- the setter is outside its section while the driver has the mutex -/
theorem Places.setter_out (h : Places b s) (hold : s.driver.holds = true) : s.setter.holds = false := by
  have hx := h.setterHolds
  rw [h.driverHolds.2 hold] at hx
  simpa using hx

/-- a step of the driver that leaves the counter and the chunks alone -/
theorem Inv.driverGoto (h : Inv b s) (hchunk : s'.chunk = s.chunk) (hruns : s'.runs = s.runs) (hnext : s'.next = s.next)
    (hcounter : s'.counter = s.counter) (hunderflow : s'.underflow = s.underflow) (hsetter : s'.setter = s.setter)
    (hsets : s'.sets = s.sets) (hinject : ∀ k, s'.driver ≠ .inject k) (hplaces : Places b s')
    (hlock : b.stealing = false → LockWaits b s') (hcore : b.stealing = true → CoreWaits s') : Inv b s' := by
  refine ⟨h.runs.frame hchunk hruns hnext, fun k hk => absurd hk (hinject k), ⟨?_, ?_, ?_, ?_⟩, hplaces, hlock, hcore⟩
  · rw [hchunk, hcounter]
    exact h.counts.tally
  · rw [hunderflow]
    exact h.counts.sound
  · rw [hsetter, hcounter]
    exact h.counts.zero
  · rw [hsets, hsetter]
    exact h.counts.sets

/-- the entry of the wait, from any place outside it -/
theorem Inv.enterWait (h : Inv b s) (hout : s.driver.holds = false) (hloop : s.driver.inLoop = false) (hchunk : s'.chunk = s.chunk)
    (hruns : s'.runs = s.runs) (hnext : s'.next = s.next) (hcounter : s'.counter = s.counter)
    (hunderflow : s'.underflow = s.underflow) (hsetter : s'.setter = s.setter) (hsets : s'.sets = s.sets)
    (hflag : s'.flag = s.flag) (hcore : s'.core = s.core) (hblocked : s'.blocked = s.blocked) (hmutex : s'.mutex = s.mutex)
    (hdriver : s'.driver = waitEntry b) : Inv b s' := by
  have hentry : (waitEntry b).fits b.stealing = true ∧ (waitEntry b).holds = false ∧ (∀ k, waitEntry b ≠ .inject k) ∧
      (waitEntry b).left = false ∧ waitEntry b ≠ .parked ∧ ((waitEntry b).ending = true → b.reserve = 0) ∧
      (waitEntry b).slept = false ∧ (waitEntry b).falling = false ∧ waitEntry b ≠ .waiting ∧ waitEntry b ≠ .returned := by
    unfold waitEntry
    split_ifs with hb hr
    · simp [hb, Driver.fits, Driver.holds, Driver.left, Driver.ending, Driver.slept, Driver.falling]
    · simp [hb, Driver.fits, Driver.holds, Driver.left, Driver.ending, Driver.slept, Driver.falling]
    · refine ⟨by simp [hb, Driver.fits], rfl, by simp, rfl, by simp, fun _ => by omega, rfl, rfl, by simp, by simp⟩
  obtain ⟨hfits, hholds, hinject, hleft, hparked, hending, hslept, hfalling, hwaiting, hreturned⟩ := hentry
  rw [← hdriver] at hfits hholds hinject hleft hparked hending hslept hfalling hwaiting hreturned
  refine h.driverGoto hchunk hruns hnext hcounter hunderflow hsetter hsets hinject
    (h.places.driverGoto hsetter hmutex hfits (hholds.trans hout.symm)) ?_ ?_
  · intro hb
    refine ⟨by rw [hflag, hsetter]; exact (h.lock hb).flag, ?_, by simp [hleft], fun hp => absurd hp hparked⟩
    intro he
    have hlow := h.runs.low
    have hhigh := h.runs.high
    have h0 := hending he
    unfold Batch.total at *
    left
    omega
  · intro hb
    have hc := h.core hb
    refine ⟨by rw [hcore, hsetter]; exact hc.core, by simp [hslept], fun hr => absurd hr hreturned, ?_, by simp [hfalling],
      fun hw => absurd hw hwaiting⟩
    intro hbl
    rw [hblocked] at hbl
    rw [hc.blocked hbl] at hloop
    cases hloop

/-- the driver enters the `execute` of a chunk -/
theorem Inv.driverStarts (h : Inv b s) {i next : ℕ} (hold : (s.chunk i).started = false) (hi : i < b.total)
    (hout : s.driver.holds = false) (hloop : s.driver.inLoop = false)
    (hnext : next = if b.injected ≤ i then i + 1 else s.next) (hlast : b.injected ≤ i → s.next = i) :
    Inv b { s.start i .driver with next := next, driver := .working i } := by
  have hruns := h.runs.start hold hi (fun _ => rfl) hnext hlast
  have hpending : (s.chunk i).pending = true := by
    cases hc : s.chunk i <;> rw [hc] at hold <;> first | rfl | cases hold
  have hmove := tally_update hi Chunk.pending s.chunk .running
  rw [hpending, h.counts.tally] at hmove
  refine ⟨hruns.frame rfl rfl rfl, by simp, ⟨?_, h.counts.sound, h.counts.zero, h.counts.sets⟩,
    h.places.driverGoto rfl rfl rfl hout.symm, ?_, ?_⟩
  · exact Nat.add_right_cancel hmove
  · intro hb
    exact ⟨(h.lock hb).flag, by simp [Driver.ending], by simp [Driver.left], by simp⟩
  · intro hb
    have hc := h.core hb
    refine ⟨hc.core, by simp [Driver.slept], by simp, ?_, by simp [Driver.falling], by simp⟩
    intro hbl
    rw [hc.blocked hbl] at hloop
    cases hloop

/-- the injection of a chunk -/
theorem Inv.inject (h : Inv b s) {k : ℕ} (hd : s.driver = .inject k) (hk : k < b.injected) :
    Inv b { s.setChunk k .queued with driver := .inject (k + 1) } := by
  have hheld := h.handed k hd k le_rfl hk
  have hlt : k < b.total := hk.trans_le (Nat.le_add_right _ _)
  have hmove := tally_update hlt Chunk.pending s.chunk .queued
  rw [hheld, h.counts.tally] at hmove
  have hother : ∀ j, j ≠ k → Function.update s.chunk k .queued j = s.chunk j := fun j hj => Function.update_of_ne hj _ _
  refine ⟨⟨?_, h.runs.driver, ?_, ?_, h.runs.low, h.runs.high, ?_⟩, ?_, ⟨Nat.add_right_cancel hmove, h.counts.sound, h.counts.zero, h.counts.sets⟩,
    h.places.driverGoto rfl rfl rfl (by rw [hd]; rfl), ?_, ?_⟩
  · intro j
    refine (h.runs.once j).trans ?_
    by_cases hj : j = k
    · subst hj
      simp [St.setChunk, hheld, Chunk.started]
    · simp [St.setChunk, hj]
  · intro j hq
    by_cases hj : j = k
    · exact hj ▸ hk
    · exact h.runs.queued j ((hother j hj).symm.trans hq)
  · intro j hj
    have hjk : j ≠ k := by omega
    exact (hother j hjk).trans (h.runs.outside j hj)
  · intro j hj hjt
    have hjk : j ≠ k := by omega
    change Function.update s.chunk k .queued j = .held ↔ s.next ≤ j
    rw [hother j hjk]
    exact h.runs.next j hj hjt
  · intro k' hk' j hj hjlt
    cases hk'
    have hjk : j ≠ k := by omega
    exact (hother j hjk).trans (h.handed k hd j (by omega) hjlt)
  · intro hb
    exact ⟨(h.lock hb).flag, by simp [Driver.ending], by simp [Driver.left], by simp⟩
  · intro hb
    have hc := h.core hb
    refine ⟨hc.core, by simp [Driver.slept], by simp, ?_, by simp [Driver.falling], by simp⟩
    intro hbl
    have hloop := hc.blocked hbl
    rw [hd] at hloop
    cases hloop

theorem Setter.finished_of_set {x : Setter} (hfits : x.fits false = true) (hset : x.didSet = true) (hout : x.holds = false) :
    x = .finished := by
  cases x <;> simp_all [Setter.fits, Setter.didSet, Setter.holds]

theorem Setter.mayNotify_of_unset {x : Setter} (hfits : x.fits false = true) (hset : x.didSet = false) : x.mayNotify = true := by
  cases x <;> simp_all [Setter.fits, Setter.didSet, Setter.mayNotify]

/-- the driver goes on with a `LockLatch` -/
theorem Inv.lockGoto (h : Inv b s) (hb : b.stealing = false) {d : Driver} {mutex : Mutex} (hinject : ∀ k, d ≠ .inject k)
    (hplaces : Places b { s with mutex := mutex, driver := d }) (hwaits : LockWaits b { s with mutex := mutex, driver := d }) :
    Inv b { s with mutex := mutex, driver := d } := by
  refine h.driverGoto rfl rfl rfl rfl rfl rfl rfl hinject hplaces (fun _ => hwaits) fun hno => ?_
  rw [hb] at hno
  cases hno

/-- the driver goes on with a `CoreLatch` -/
theorem Inv.coreGoto (h : Inv b s) (hb : b.stealing = true) {d : Driver} {core : Latch} {mutex : Mutex} {blocked : Bool}
    (hinject : ∀ k, d ≠ .inject k) (hplaces : Places b { s with core := core, mutex := mutex, blocked := blocked, driver := d })
    (hwaits : CoreWaits { s with core := core, mutex := mutex, blocked := blocked, driver := d }) :
    Inv b { s with core := core, mutex := mutex, blocked := blocked, driver := d } := by
  refine h.driverGoto rfl rfl rfl rfl rfl rfl rfl hinject hplaces (fun hno => ?_) fun _ => hwaits
  rw [hb] at hno
  cases hno

/-- the wait on a `LockLatch` -/
theorem lockDriver_inv {c : Choice} (h : Inv b s) (hb : b.stealing = false) (hs : driverStep b s c = some s') : Inv b s' := by
  have hl := h.lock hb
  have hp := h.places
  have hfits := hp.driver
  rw [hb] at hfits
  -- between the reserve and the mutex: another round, or the lock
  have hspin : ∀ {d : Driver}, s.driver.ending = true → s.driver.holds = false →
      (d = .lock ∨ (∃ left, d = .assist left) ∨ ∃ left, d = .spin left) → Inv b { s with driver := d } := by
    intro d hending hout hdest
    have hstays := hl.ending hending
    rcases hdest with rfl | ⟨left, rfl⟩ | ⟨left, rfl⟩
    all_goals
      exact h.lockGoto hb (by simp) (hp.driverGoto rfl rfl (by simp [hb, Driver.fits]) (hout.symm ▸ rfl))
        ⟨hl.flag, fun _ => hstays, by simp [Driver.left], by simp⟩
  cases hd : s.driver with
  | inject k =>
    simp only [driverStep, hd] at hs
    split_ifs at hs with hk hpart
    · cases hs
      exact h.inject hd hk
    · cases hs
      exact h.lockGoto hb (by simp) (hp.driverGoto rfl rfl rfl (by rw [hd]; rfl))
        ⟨hl.flag, by simp [Driver.ending], by simp [Driver.left], by simp⟩
    · cases hs
      exact h.enterWait (by rw [hd]; rfl) (by rw [hd]; rfl) rfl rfl rfl rfl rfl rfl rfl rfl rfl rfl rfl rfl
  | inline =>
    simp only [driverStep, hd] at hs
    cases hs
    exact h.enterWait (by rw [hd]; rfl) (by rw [hd]; rfl) rfl rfl rfl rfl rfl rfl rfl rfl rfl rfl rfl rfl
  | assist spinsLeft =>
    have hlow := h.runs.low
    simp only [driverStep, hd] at hs
    split_ifs at hs with hlt
    · cases hs
      refine h.driverStarts ?_ hlt (by rw [hd]; rfl) (by rw [hd]; rfl) (by rw [if_pos hlow]) fun _ => rfl
      rw [(h.runs.next s.next hlow hlt).2 le_rfl]
      rfl
    · cases hs
      have hhigh := h.runs.high
      refine h.lockGoto hb (by simp) (hp.driverGoto rfl rfl (by simp [hb, Driver.fits]) (by rw [hd]; rfl))
        ⟨hl.flag, ?_, by simp [Driver.left], by simp⟩
      intro _
      left
      dsimp only
      omega
  | working i =>
    simp only [driverStep, hd, hb, Bool.false_eq_true, if_false] at hs
    split_ifs at hs
    cases hs
    exact h.lockGoto hb (by simp) (hp.driverGoto rfl rfl (by simp [hb, Driver.fits]) (by rw [hd]; rfl))
      ⟨hl.flag, by simp [Driver.ending], by simp [Driver.left], by simp⟩
  | worked =>
    simp only [driverStep, hd] at hs
    split_ifs at hs with h0
    · cases hs
      exact h.lockGoto hb (by simp) (hp.driverGoto rfl rfl (by simp [hb, Driver.fits]) (by rw [hd]; rfl))
        ⟨hl.flag, fun _ => Or.inr h0, by simp [Driver.left], by simp⟩
    · cases hs
      exact h.lockGoto hb (by simp) (hp.driverGoto rfl rfl (by simp [hb, Driver.fits]) (by rw [hd]; rfl))
        ⟨hl.flag, by simp [Driver.ending], by simp [Driver.left], by simp⟩
  | idle spinsLeft =>
    simp only [driverStep, hd] at hs
    cases hs
    refine hspin (by rw [hd]; rfl) (by rw [hd]; rfl) ?_
    split_ifs <;> simp
  | spin left =>
    simp only [driverStep, hd] at hs
    cases hs
    refine hspin (by rw [hd]; rfl) (by rw [hd]; rfl) ?_
    split_ifs <;> simp
  | lock =>
    have hending := hl.ending (by rw [hd]; rfl)
    simp only [driverStep, hd] at hs
    split_ifs at hs with hfree
    cases hs
    exact h.lockGoto hb (by simp) (hp.driverTakes hfree rfl rfl (by simp [hb, Driver.fits]) rfl)
      ⟨hl.flag, fun _ => hending, by simp [Driver.left], by simp⟩
  | test =>
    have hending := hl.ending (by rw [hd]; rfl)
    have hout := hp.setter_out (by rw [hd]; rfl)
    have hflag := hl.flag
    have hsfits := hp.setter
    rw [hb] at hsfits
    simp only [driverStep, hd] at hs
    split_ifs at hs with hset
    · -- the setter has stored and is out of its section: it has finished
      cases hs
      refine h.lockGoto hb (by simp) (hp.driverGoto rfl rfl (by simp [hb, Driver.fits]) (by rw [hd]; rfl))
        ⟨hl.flag, fun _ => hending, fun _ => ?_, by simp⟩
      exact Setter.finished_of_set hsfits (hflag.symm.trans hset) hout
    · -- the setter has not stored: it has still to notify
      cases hs
      refine h.lockGoto hb (by simp)
        (hp.driverGives (by rw [hd]; rfl) rfl rfl (by simp [hb, Driver.fits]) rfl)
        ⟨hl.flag, fun _ => hending, by simp [Driver.left], fun _ => ?_⟩
      exact Setter.mayNotify_of_unset hsfits (hflag.symm.trans (by simpa using hset))
  | leave =>
    have hleft := hl.left (by rw [hd]; rfl)
    simp only [driverStep, hd] at hs
    cases hs
    exact h.lockGoto hb (by simp) (hp.driverGives (by rw [hd]; rfl) rfl rfl rfl rfl)
      ⟨hl.flag, by simp [Driver.ending], fun _ => hleft, by simp⟩
  | parked | returned => simp [driverStep, hd] at hs
  | probe | find | getSleepy | sleepLock | fallAsleep | settle | waitLoop | waiting | relock | wakeUp | sleepUnlock =>
    rw [hd] at hfits
    cases hfits

/-- the wait on a `CoreLatch`, up to the sleep mutex -/
theorem coreDriver_outside {c : Choice} (h : Inv b s) (hb : b.stealing = true) (hout : s.driver.holds = false)
    (hloop : s.driver.inLoop = false) (hs : driverStep b s c = some s') : Inv b s' := by
  have hc := h.core hb
  have hp := h.places
  have hfits := hp.driver
  have hdown : s.blocked = false := by
    by_contra hbl
    rw [hc.blocked (by simpa using hbl)] at hloop
    cases hloop
  rw [hb] at hfits
  -- to a place outside the sleep
  have hgo : ∀ {d : Driver} {core : Latch}, d.fits true = true → d.holds = false → (∀ k, d ≠ .inject k) → d.slept = false →
      (d = .returned → s.setter.didSet = true) → d ≠ .waiting → d.falling = false → (core = .set ↔ s.setter.didSet = true) →
      Inv b { s with core := core, driver := d } := by
    intro d core hdfits hdout hdinject hdslept hdreturned hdwaiting hdfalling hcore
    refine h.coreGoto hb hdinject (hp.driverGoto rfl rfl (by rw [hb]; exact hdfits) (hdout.trans hout.symm)) ?_
    exact ⟨hcore, by simp [hdslept], hdreturned, by simp [hdown], by simp [hdfalling], fun hw => absurd hw hdwaiting⟩
  cases hd : s.driver with
  | inject k =>
    simp only [driverStep, hd] at hs
    split_ifs at hs with hk hpart
    · cases hs
      exact h.inject hd hk
    · rw [(b.onPool hb).2] at hpart
      cases hpart
    · cases hs
      exact h.enterWait hout hloop rfl rfl rfl rfl rfl rfl rfl rfl rfl rfl rfl rfl
  | inline =>
    simp only [driverStep, hd] at hs
    cases hs
    exact h.enterWait hout hloop rfl rfl rfl rfl rfl rfl rfl rfl rfl rfl rfl rfl
  | working i =>
    simp only [driverStep, hd, hb, if_true] at hs
    split_ifs at hs
    cases hs
    exact hgo rfl rfl (by simp) rfl (by simp) (by simp) rfl hc.core
  | probe =>
    simp only [driverStep, hd] at hs
    split_ifs at hs with hset
    · cases hs
      exact hgo rfl rfl (by simp) rfl (fun _ => hc.core.1 hset) (by simp) rfl hc.core
    · cases hs
      exact hgo rfl rfl (by simp) rfl (by simp) (by simp) rfl hc.core
  | find =>
    simp only [driverStep, hd] at hs
    split at hs
    · next i _ =>
      split_ifs at hs with hq
      cases hs
      have hlt := h.runs.queued i hq
      refine h.driverStarts (by rw [hq]; rfl) (hlt.trans_le (Nat.le_add_right _ _)) hout hloop ?_ fun hge => absurd hge (by omega)
      rw [if_neg (by omega)]
      rfl
    · split_ifs at hs
      · cases hs
        exact hgo rfl rfl (by simp) rfl (by simp) (by simp) rfl hc.core
      · cases hs
        exact hgo rfl rfl (by simp) rfl (by simp) (by simp) rfl hc.core
  | getSleepy =>
    simp only [driverStep, hd] at hs
    split_ifs at hs with hunset
    · cases hs
      refine hgo rfl rfl (by simp) rfl (by simp) (by simp) rfl ?_
      rw [← hc.core, hunset]
      decide
    · cases hs
      exact hgo rfl rfl (by simp) rfl (by simp) (by simp) rfl hc.core
  | sleepLock =>
    simp only [driverStep, hd] at hs
    split_ifs at hs with hfree
    cases hs
    exact h.coreGoto hb (by simp) (hp.driverTakes hfree rfl rfl (by rw [hb]; rfl) rfl)
      ⟨hc.core, by simp [Driver.slept], by simp, by simp [hdown], by simp [Driver.falling], by simp⟩
  | returned => simp [driverStep, hd] at hs
  | assist _ | worked | idle _ | spin _ | lock | test | parked | leave =>
    rw [hd] at hfits
    cases hfits
  | fallAsleep | settle | wakeUp | sleepUnlock =>
    rw [hd] at hout
    cases hout
  | waitLoop | waiting | relock =>
    rw [hd] at hloop
    cases hloop

/-- the wait on a `CoreLatch`, with the sleep mutex and in `condvar.wait` -/
theorem coreDriver_asleep {c : Choice} (h : Inv b s) (hb : b.stealing = true) (hin : s.driver.holds = true ∨ s.driver.inLoop = true)
    (hs : driverStep b s c = some s') : Inv b s' := by
  have hc := h.core hb
  have hp := h.places
  have hfits := hp.driver
  have hdown : s.driver.inLoop = false → s.blocked = false := by
    intro hloop
    by_contra hbl
    rw [hc.blocked (by simpa using hbl)] at hloop
    cases hloop
  rw [hb] at hfits
  cases hd : s.driver with
  | fallAsleep =>
    have hbl := hdown (by rw [hd]; rfl)
    simp only [driverStep, hd] at hs
    split_ifs at hs with hsleepy
    · cases hs
      refine h.coreGoto hb (by simp) (hp.driverGoto rfl rfl (by rw [hb]; rfl) (by rw [hd]; rfl))
        ⟨?_, by simp, by simp, by simp [hbl], by simp, by simp⟩
      dsimp only
      rw [← hc.core, hsleepy]
      decide
    · cases hs
      exact h.coreGoto hb (by simp) (hp.driverGoto rfl rfl (by rw [hb]; rfl) (by rw [hd]; rfl))
        ⟨hc.core, by simp [Driver.slept], by simp, by simp [hbl], by simp [Driver.falling], by simp⟩
  | settle =>
    have hbl := hdown (by rw [hd]; rfl)
    have hslept := hc.slept (by rw [hd]; rfl)
    simp only [driverStep, hd] at hs
    split_ifs at hs
    · cases hs
      exact h.coreGoto hb (by simp) (hp.driverGoto rfl rfl (by rw [hb]; rfl) (by rw [hd]; rfl))
        ⟨hc.core, fun _ => hslept, by simp, by simp [hbl], by simp [Driver.falling], by simp⟩
    · cases hs
      refine h.coreGoto hb (by simp) (hp.driverGoto rfl rfl (by rw [hb]; rfl) (by rw [hd]; rfl))
        ⟨hc.core, fun _ => hslept, by simp, fun _ => rfl, ?_, by simp⟩
      -- the setter cannot have looked before: the driver has held the mutex since it fell asleep
      intro hset _
      rcases hc.falling hset (by rw [hd]; rfl) with hlook | hno
      · exact Or.inl hlook
      · rw [hd] at hno
        cases hno.1
  | waitLoop =>
    have hslept := hc.slept (by rw [hd]; rfl)
    have hfalling := hc.falling
    simp only [driverStep, hd] at hs
    rw [hd] at hfalling
    split_ifs at hs with hbl
    · cases hs
      refine h.coreGoto hb (by simp)
        (hp.driverGives (by rw [hd]; rfl) rfl rfl (by rw [hb]; rfl) rfl)
        ⟨hc.core, fun _ => hslept, by simp, fun _ => rfl, hfalling, ?_⟩
      intro _ hup
      rw [hbl] at hup
      cases hup
    · cases hs
      exact h.coreGoto hb (by simp) (hp.driverGoto rfl rfl (by rw [hb]; rfl) (by rw [hd]; rfl))
        ⟨hc.core, fun _ => hslept, by simp, by simp [hbl], by simp [Driver.falling], by simp⟩
  | relock =>
    have hslept := hc.slept (by rw [hd]; rfl)
    have hfalling := hc.falling
    simp only [driverStep, hd] at hs
    rw [hd] at hfalling
    split_ifs at hs with hfree
    cases hs
    exact h.coreGoto hb (by simp) (hp.driverTakes hfree rfl rfl (by rw [hb]; rfl) rfl)
      ⟨hc.core, fun _ => hslept, by simp, fun _ => rfl, hfalling, by simp⟩
  | wakeUp =>
    have hbl := hdown (by rw [hd]; rfl)
    simp only [driverStep, hd] at hs
    cases hs
    refine h.coreGoto hb (by simp) (hp.driverGoto rfl rfl (by rw [hb]; rfl) (by rw [hd]; rfl))
      ⟨?_, by simp [Driver.slept], by simp, by simp [hbl], by simp [Driver.falling], by simp⟩
    dsimp only
    rw [← hc.core]
    split_ifs with hsleeping
    · rw [hsleeping]
      decide
    · rfl
  | sleepUnlock =>
    have hbl := hdown (by rw [hd]; rfl)
    simp only [driverStep, hd] at hs
    cases hs
    exact h.coreGoto hb (by simp) (hp.driverGives (by rw [hd]; rfl) rfl rfl (by rw [hb]; rfl) rfl)
      ⟨hc.core, by simp [Driver.slept], by simp, by simp [hbl], by simp [Driver.falling], by simp⟩
  | waiting => simp [driverStep, hd] at hs
  | test | leave =>
    rw [hd] at hfits
    cases hfits
  | inject _ | inline | assist _ | working _ | worked | idle _ | spin _ | lock | parked | probe | find | getSleepy | sleepLock | returned =>
    rw [hd] at hin
    rcases hin with hno | hno <;> cases hno

theorem driverStep_inv {c : Choice} (h : Inv b s) (hs : driverStep b s c = some s') : Inv b s' := by
  rcases hb : b.stealing with _ | _
  · exact lockDriver_inv h hb hs
  · by_cases hin : s.driver.holds = true ∨ s.driver.inLoop = true
    · exact coreDriver_asleep h hb hin hs
    · rw [not_or, Bool.not_eq_true, Bool.not_eq_true] at hin
      exact coreDriver_outside h hb hin.1 hin.2 hs

/-! ## Runs of the machine -/

theorem step_inv {a : Act} (h : Inv b s) (hs : step b s a = some s') : Inv b s' := by
  cases a with
  | driver c => exact driverStep_inv h hs
  | start i =>
    simp only [step] at hs
    split_ifs at hs with hq
    cases hs
    have hlt := h.runs.queued i hq
    have hruns : Runs b (s.start i .worker) := by
      refine h.runs.start (by rw [hq]; rfl) (hlt.trans_le (Nat.le_add_right _ _)) (fun hge => absurd hge (by omega)) ?_
        fun hge => absurd hge (by omega)
      rw [if_neg (by omega)]
      rfl
    exact h.setChunk (by rw [hq]; decide) (by rw [hq]; rfl) hruns
  | finish i outcome =>
    simp only [step] at hs
    split_ifs at hs with hr
    cases hs
    exact h.setChunk (by rw [hr]; decide) (by rw [hr]; rfl) (h.runs.advance (by rw [hr]; rfl) rfl rfl rfl rfl)
  | report i =>
    simp only [step] at hs
    by_cases hr : s.chunk i = .ran
    · rw [if_pos hr] at hs
      cases hs
      exact report_inv h hr
    · rw [if_neg hr] at hs
      cases hs
  | setter => exact setterStep_inv h hs
  | other o =>
    simp only [step] at hs
    split_ifs at hs with hb
    exact otherStep_inv h hb hs
  | spurious =>
    cases hs
    exact ⟨h.runs.frame rfl rfl rfl, h.handed_frame rfl (Or.inr rfl),
      ⟨h.counts.tally, h.counts.sound, h.counts.zero, h.counts.sets⟩, h.places.woken, fun hb => (h.lock hb).woken,
      fun hb => (h.core hb).woken⟩

theorem run_inv {acts : List Act} (h : Inv b s) (hr : run b s acts = some s') : Inv b s' :=
  Machine.run_keeps (fun _ h hs => step_inv h hs) h hr

end Steps

/-! ## The result -/

/-- the driver sleeps: in the `condvar.wait` of the `LockLatch`, or in that of the sleep module with its flag up -/
def St.parked (s : St) : Prop := s.driver = .parked ∨ (s.driver = .waiting ∧ s.blocked = true)

section Result

variable {b : Batch} {s : St}

theorem Inv.counter_zero_iff (h : Inv b s) : s.counter = 0 ↔ ∀ i < b.total, s.chunk i = .reported := by
  rw [← h.counts.tally, tally, Finset.card_eq_zero, Finset.filter_eq_empty_iff]
  constructor
  · intro hall i hi
    have hno := hall (Finset.mem_range.2 hi)
    cases hc : s.chunk i <;> rw [hc] at hno <;> first | rfl | exact absurd rfl hno
  · intro hall i hi
    rw [hall i (Finset.mem_range.1 hi)]
    decide

theorem Inv.counter_zero (h : Inv b s) (hset : s.setter ≠ .idle) : s.counter = 0 := by
  by_contra hpos
  exact hset (h.counts.zero.2 (Nat.pos_of_ne_zero hpos))

theorem Setter.settled_of_set {x : Setter} (hfits : x.fits true = true) (hset : x.didSet = true) : x.settled = true := by
  cases x <;> simp_all [Setter.fits, Setter.didSet, Setter.settled]

/-- whoever has returned saw the latch set, after the last access of the setter -/
theorem Inv.settled_of_returned (h : Inv b s) (hd : s.driver = .returned) : s.setter.settled = true ∧ s.setter.didSet = true := by
  rcases hb : b.stealing with _ | _
  · have hfin := (h.lock hb).left (by rw [hd]; rfl)
    rw [hfin]
    exact ⟨rfl, rfl⟩
  · have hset := (h.core hb).returned hd
    have hfits := h.places.setter
    rw [hb] at hfits
    exact ⟨Setter.settled_of_set hfits hset, hset⟩

/-- the driver is in a condition variable only when its reserve is used up -/
theorem Inv.no_reserve_left (h : Inv b s) (hd : s.driver = .parked ∨ s.driver = .waiting) {i : ℕ} (hi : b.injected ≤ i)
    (hlt : i < b.total) : s.chunk i ≠ .held := by
  have hfits := h.places.driver
  rcases hd with hd | hd
  · rw [hd] at hfits
    have hb : b.stealing = false := by simpa [Driver.fits] using hfits
    rcases (h.lock hb).ending (by rw [hd]; rfl) with hnext | h0
    · intro hheld
      have hle := (h.runs.next i hi hlt).1 hheld
      omega
    · rw [h.counter_zero_iff.1 h0 i hlt]
      decide
  · rw [hd] at hfits
    have hnone := (b.onPool hfits).1
    unfold Batch.total at hlt
    omega

theorem Inv.not_lost (h : Inv b s) (hset : s.setter = .finished) : ¬ s.parked := by
  have hfits := h.places.driver
  rintro (hd | ⟨hd, hup⟩)
  · rw [hd] at hfits
    have hb : b.stealing = false := by simpa [Driver.fits] using hfits
    have hnotify := (h.lock hb).parked hd
    rw [hset] at hnotify
    cases hnotify
  · rw [hd] at hfits
    have hc := h.core hfits
    have hcore := hc.core.2 (by rw [hset]; rfl)
    rcases hc.falling hcore (by rw [hd]; rfl) with hlook | ⟨-, hdown⟩
    · rw [hset] at hlook
      cases hlook
    · rw [hup] at hdown
      cases hdown

end Result

theorem two_chunks_shape : ((false : Bool) = true → 1 = 0 ∧ (true : Bool) = false) ∧ 0 < 1 + 1 := by decide

/-- one injected and one reserve chunk, off the pool -/
def twoChunks : Batch := ⟨1, 1, true, false, two_chunks_shape.1, two_chunks_shape.2⟩

/-- a step of the driver that leaves nothing open -/
def go : Act := .driver ⟨none, false, .ok⟩

/-- the driver runs its inline and its reserve chunk; the injected one panics, reports last and sets the latch, while the driver
has seen the counter at zero and is at the mutex -/
def assistActs : List Act :=
  [go, go, .start 0, go, go, .finish 0 .panicked, .finish 1 .ok, .report 1, .report 0, go, go, .setter, .setter, .setter, .setter,
    go, go, go]

end YouPipe.CountLatch
