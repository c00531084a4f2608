/-
`join` on the pool (`pool/join.rs`, `pool/job.rs`, the wait loops of `pool/registry.rs`). A join makes a `StackJob` for its second
closure in its own stack frame and puts a reference to it into the local deque, from where it can be stolen, or into the injector
when the deque is full, which it may also be early, while slots of a steal in progress are still taken (`busy`). The first closure
runs at once; then the frame takes its job back, runs other jobs, or waits for the thread that has it. The job's memory is gone
when the frame is gone.

A closure is a program of joins. Panics are results: `halt_unwinding` turns them into values, `run_inline` does not, so that a
panic of a second closure that comes back to its own frame unwinds through it.

`join_sound` (in `JoinRuns`): no schedule lets a thread touch the memory of a job whose frame is gone, run a closure twice or find a
latch set without a result, and every answer is one the program has. `join_completes`: every schedule comes to its end, with every
call answered.
-/
import Mathlib.Tactic

namespace YouPipe.Join

variable {P V : Type}

/-! ## Programs -/

/-- what a closure does: return or panic, or call `join_captured` and go on with both results -/
inductive Prog (P V : Type)
  | done (r : Except P V)
  | join (a b : Prog P V) (k : Except P V → Except P V → Prog P V)

/-- `join_on`: both results, or A's panic, or B's -/
def Prog.joinOn (a b : Prog P V) (k : V → V → Prog P V) : Prog P V :=
  .join a b fun ra rb =>
    match ra, rb with
    | .error p, _ => .done (.error p)
    | .ok _, .error p => .done (.error p)
    | .ok x, .ok y => k x y

/-- the results a program can have: B's panic may pass the code after the join when A returned -/
inductive Evals : Prog P V → Except P V → Prop
  | done (r : Except P V) : Evals (.done r) r
  | join {a b : Prog P V} {k : Except P V → Except P V → Prog P V} {ra rb r : Except P V} (ha : Evals a ra) (hb : Evals b rb)
      (hk : Evals (k ra rb) r) : Evals (.join a b k) r
  | unwound {a b : Prog P V} {k : Except P V → Except P V → Prog P V} {x : V} {p : P} (ha : Evals a (.ok x)) (hb : Evals b (.error p)) :
      Evals (.join a b k) (.error p)

/-- one after the other, on one thread -/
def Prog.eval : Prog P V → Except P V
  | .done r => r
  | .join a b k => (k a.eval b.eval).eval

/-- built with `join_on` alone -/
inductive Prog.Plain : Prog P V → Prop
  | done (r : Except P V) : Plain (.done r)
  | joinOn {a b : Prog P V} {k : V → V → Prog P V} (ha : Plain a) (hb : Plain b) (hk : ∀ x y, Plain (k x y)) : Plain (.joinOn a b k)

/-- a plain program has one result: A's panic wins, B's comes next -/
theorem Prog.Plain.unique {p : Prog P V} {r : Except P V} (hp : p.Plain) (h : Evals p r) : r = p.eval := by
  induction hp generalizing r with
  | done r' =>
    cases h
    rfl
  | @joinOn a b k ha hb hk iha ihb ihk =>
    simp only [Prog.joinOn, Prog.eval]
    cases h with
    | join ha' hb' hk' =>
      rw [← iha ha', ← ihb hb']
      rename_i ra rb
      cases ra with
      | error p =>
        cases hk'
        rfl
      | ok x =>
        cases rb with
        | error p =>
          cases hk'
          rfl
        | ok y => exact ihk x y hk'
    | unwound ha' hb' =>
      rw [← iha ha', ← ihb hb']
      rfl

/-! ## The pool -/

/-- `StackJob` -/
structure Job (P V : Type) where
  func : Option (Prog P V)
  result : Option (Except P V)
  latch : Bool
  /-- the frame that holds the job is there -/
  alive : Bool

def Job.gone : Job P V := ⟨none, none, false, false⟩

inductive Frame (P V : Type)
  /-- `halt_unwinding(oper_a)` -/
  | runA (j : ℕ) (k : Except P V → Except P V → Prog P V)
  /-- the loop after A: probe the latch -/
  | loop (j : ℕ) (ra : Except P V) (k : Except P V → Except P V → Prog P V)
  /-- the loop after A: pop the local deque -/
  | pop (j : ℕ) (ra : Except P V) (k : Except P V → Except P V → Prog P V)
  /-- `wait_until` -/
  | wait (j : ℕ) (ra : Except P V) (k : Except P V → Except P V → Prog P V)
  /-- `run_inline`, A returned `x` -/
  | inlineB (j : ℕ) (x : V) (k : Except P V → Except P V → Prog P V)
  /-- `run_captured`, A panicked with `p` -/
  | capturedB (j : ℕ) (p : P) (k : Except P V → Except P V → Prog P V)
  /-- `StackJob::execute`: the closure runs -/
  | exec (j : ℕ)
  /-- `StackJob::execute`: the result is written, the latch is next -/
  | finish (j : ℕ)

inductive Ctrl (P V : Type)
  | run (p : Prog P V)
  /-- a closure has returned, or its panic unwinds -/
  | ret (r : Except P V)
  /-- the top frame goes on; without a frame, the main loop -/
  | resume

structure Worker (P V : Type) where
  ctrl : Ctrl P V
  stack : List (Frame P V)

structure St (P V : Type) where
  job : ℕ → Job P V
  fresh : ℕ
  deque : ℕ → List ℕ
  injector : List ℕ
  worker : ℕ → Worker P V
  /-- jobs whose frames are on threads outside the pool, in `in_worker_cold` -/
  ext : List ℕ
  outcomes : List (ℕ × Except P V)
  /-- the closure of each job, which no step looks at -/
  code : ℕ → Prog P V
  /-- memory of a gone frame was touched, a closure taken twice, a result missing -/
  fault : Bool

def init [Inhabited V] : St P V where
  job := fun _ => .gone
  fresh := 0
  deque := fun _ => []
  injector := []
  worker := fun _ => ⟨.resume, []⟩
  ext := []
  outcomes := []
  code := fun _ => .done (.ok default)
  fault := false

namespace St

def setJob (s : St P V) (j : ℕ) (b : Job P V) : St P V := { s with job := Function.update s.job j b }

def setWorker (s : St P V) (w : ℕ) (t : Worker P V) : St P V := { s with worker := Function.update s.worker w t }

def setDeque (s : St P V) (w : ℕ) (l : List ℕ) : St P V := { s with deque := Function.update s.deque w l }

/-- `StackJob::new` -/
def alloc (s : St P V) (b : Prog P V) : St P V :=
  { s with
    job := Function.update s.job s.fresh ⟨some b, none, false, true⟩
    code := Function.update s.code s.fresh b
    fresh := s.fresh + 1 }

/-- `Registry::inject` -/
def inject (s : St P V) (j : ℕ) : St P V := { s with injector := s.injector ++ [j] }

/-- `WorkerThread::push`: a full deque spills into the injector -/
def push (s : St P V) (cap w j : ℕ) (busy : Bool) : St P V :=
  if (s.deque w).length < cap ∧ busy = false then s.setDeque w (s.deque w ++ [j]) else s.inject j

/-- the frame of a job is left -/
def free (s : St P V) (j : ℕ) : St P V :=
  if (s.job j).alive then s.setJob j .gone else { s with fault := true }

/-- take the closure out of the job and run it on top of `stack` -/
def start (s : St P V) (w j : ℕ) (stack : List (Frame P V)) : St P V :=
  match s.job j with
  | ⟨some f, result, latch, true⟩ => (s.setJob j ⟨none, result, latch, true⟩).setWorker w ⟨.run f, stack⟩
  | _ => { s with fault := true }

/-- `into_result_captured`: the frame of the join is left with both results -/
def settle (s : St P V) (w j : ℕ) (ra : Except P V) (k : Except P V → Except P V → Prog P V) (stack : List (Frame P V)) : St P V :=
  match s.job j with
  | ⟨_, some rb, _, true⟩ => (s.setJob j .gone).setWorker w ⟨.run (k ra rb), stack⟩
  | _ => { s with fault := true }

/-- `latch.probe()` -/
def probe (s : St P V) (j : ℕ) : Option Bool := if (s.job j).alive then some (s.job j).latch else none

end St

/-! ## Steps -/

/-- the worker goes on by itself -/
def work (cap : ℕ) (busy : Bool) (s : St P V) (w : ℕ) : Worker P V → Option (St P V)
  | ⟨.run (.done r), st⟩ => some (s.setWorker w ⟨.ret r, st⟩)
  | ⟨.run (.join a b k), st⟩ => some (((s.alloc b).push cap w s.fresh busy).setWorker w ⟨.run a, .runA s.fresh k :: st⟩)
  | ⟨.ret r, .runA j k :: st⟩ => some (s.setWorker w ⟨.resume, .loop j r k :: st⟩)
  | ⟨.ret r, .inlineB j x k :: st⟩ =>
    match r with
    | .ok y => some ((s.free j).setWorker w ⟨.run (k (.ok x) (.ok y)), st⟩)
    | .error p => some ((s.free j).setWorker w ⟨.ret (.error p), st⟩)
  | ⟨.ret r, .capturedB j p k :: st⟩ => some ((s.free j).setWorker w ⟨.run (k (.error p) r), st⟩)
  | ⟨.ret r, .exec j :: st⟩ =>
    if (s.job j).alive then some ((s.setJob j { s.job j with result := some r }).setWorker w ⟨.resume, .finish j :: st⟩)
    else some { s with fault := true }
  | ⟨.resume, .finish j :: st⟩ =>
    if (s.job j).alive then some ((s.setJob j { s.job j with latch := true }).setWorker w ⟨.resume, st⟩)
    else some { s with fault := true }
  | ⟨.resume, .loop j ra k :: st⟩ =>
    match s.probe j with
    | none => some { s with fault := true }
    | some true => some (s.settle w j ra k st)
    | some false => some (s.setWorker w ⟨.resume, .pop j ra k :: st⟩)
  | ⟨.resume, .pop j ra k :: st⟩ =>
    match (s.deque w).getLast? with
    | none => some (s.setWorker w ⟨.resume, .wait j ra k :: st⟩)
    | some i =>
      let s' := s.setDeque w (s.deque w).dropLast
      if i = j then
        match ra with
        | .ok x => some (s'.start w j (.inlineB j x k :: st))
        | .error p => some (s'.start w j (.capturedB j p k :: st))
      else some (s'.start w i (.exec i :: .loop j ra k :: st))
  | ⟨.resume, .wait j ra k :: st⟩ =>
    match s.probe j with
    | none => some { s with fault := true }
    | some true => some (s.settle w j ra k st)
    | some false => none
  | _ => none

/-- where `find_work` finds a job -/
inductive Source
  | deque
  | injector
  | steal (v : ℕ)
deriving DecidableEq, Repr

/-- the loops that look for work: the main loop and `wait_until` -/
def Worker.looks : Worker P V → Bool
  | ⟨.resume, []⟩ => true
  | ⟨.resume, .wait _ _ _ :: _⟩ => true
  | _ => false

/-- a job is taken out of a queue: its owner takes the youngest, thieves and the injector's readers the oldest -/
def take (s : St P V) (w : ℕ) : Source → Option (ℕ × St P V)
  | .deque =>
    match (s.deque w).getLast? with
    | some i => some (i, s.setDeque w (s.deque w).dropLast)
    | none => none
  | .injector =>
    match s.injector with
    | i :: rest => some (i, { s with injector := rest })
    | [] => none
  | .steal v =>
    if v = w then none
    else
      match s.deque v with
      | i :: rest => some (i, s.setDeque v rest)
      | [] => none

inductive Act (P V : Type)
  /-- `busy`: a thief still holds slots of the worker's deque -/
  | work (w : ℕ) (busy : Bool)
  /-- a worker without work looks for a job -/
  | find (w : ℕ) (src : Source)
  /-- a thread outside the pool calls `in_worker` -/
  | submit (p : Prog P V)
  /-- ... and finds its latch set -/
  | collect (j : ℕ)

def step (n cap : ℕ) (s : St P V) : Act P V → Option (St P V)
  | .work w busy => if w < n then work cap busy s w (s.worker w) else none
  | .find w src =>
    if w < n ∧ (s.worker w).looks then
      match take s w src with
      | some (i, s') => some (s'.start w i (.exec i :: (s.worker w).stack))
      | none => none
    else none
  | .submit p => some { (s.alloc p).inject s.fresh with ext := s.fresh :: s.ext }
  | .collect j =>
    if j ∈ s.ext ∧ (s.job j).latch then
      match s.job j with
      | ⟨_, some r, _, true⟩ => some { s.setJob j .gone with ext := s.ext.erase j, outcomes := s.outcomes ++ [(j, r)] }
      | _ => some { s with fault := true }
    else none

def run (n cap : ℕ) (s : St P V) (acts : List (Act P V)) : Option (St P V) := acts.foldlM (step n cap) s

end YouPipe.Join
