/-
The pool's sleep protocol (`pool/sleep.rs`, `pool/latch.rs` and the inject paths of `pool/registry.rs`) as a machine whose
steps are single atomic operations: loads and exchanges of the counter word, mask updates, latch transitions, injector
operations, mutex acquisition and release, and the condition variable.

Thread `t < n` is worker `t`; every other thread is outside the pool. A worker is in its idle loop (`wait_until_cold`) or
active. Any thread that is not in an idle loop may post: inject jobs, announce jobs it pushed on its own deque, or set a
latch. A worker that found work runs the wake cascade of `work_found` as a posting of its own before it goes on.

A worker's record holds its `is_blocked` flag and its sleep mutex; a mutex held by a waker carries the waker's place in the
critical section of `wake_specific_thread`. Local deques and peers are not represented: `find_work` may find a job elsewhere,
or nothing, at any time. Condition variables may wake spuriously.

The injector is represented by the number of jobs in it.
-/
import Mathlib.Tactic
import YouPipe.Pool.Counters
import YouPipe.Pool.SleepMask

namespace YouPipe.Pool

open YouPipe.Word

/-! ## State -/

/-- `CoreLatch` states -/
inductive Latch where
  | unset
  | sleepy
  | sleeping
  | set
deriving DecidableEq, Repr

/-- `IdleTuning` -/
structure Tuning where
  spin : ℕ
  yieldRounds : ℕ
deriving DecidableEq, Repr

def u32Range : ℕ := 2 ^ 32

def Tuning.sleepyRound (t : Tuning) : ℕ := (t.spin + t.yieldRounds) % u32Range

/-- a worker's place in its idle loop -/
inductive Pc where
  | active
  | probe
  | find
  | noWork
  | announceLoad
  | announceCas (old : ℕ)
  | getSleepy
  | lock
  | fallAsleep
  | maskSet
  | load
  | commit (old : ℕ)
  | finalCheck
  | retract
  | maskClear
  | setBlocked
  | waitLoop
  | waiting
  | relock
  | wakeUp
  | wakeUpCas
  | unlock
  | workFound
deriving DecidableEq, Repr

/-- a waker's place in the critical section of `wake_specific_thread` -/
inductive Section where
  | check
  | maskClear
  | subSleeping
  | unlock (woken : Bool)
deriving DecidableEq, Repr

/-- the sleep mutex: held by its worker, or by a waker at a place in its critical section -/
inductive Lock where
  | free
  | self
  | waker (t : ℕ) (sec : Section)
deriving DecidableEq, Repr

/-- a worker with its `IdleState`, the latch its idle loop waits on, its `is_blocked` flag and its sleep mutex -/
structure Worker where
  pc : Pc
  latch : ℕ
  rounds : ℕ
  jobsCounter : ℕ
  blocked : Bool
  lock : Lock
deriving DecidableEq, Repr

/-- what a wake cascade is for -/
inductive Kind where
  | injected
  | internal
  | found
deriving DecidableEq, Repr

/-- the locals of `wake_scan` -/
structure Scan where
  kind : Kind
  target : ℕ
  woken : ℕ
  word : ℕ
  bits : BitVec 64
deriving DecidableEq, Repr

/-- the caller of `wake_specific_thread` -/
inductive Caller where
  | scan (f : Scan)
  | latch (l : ℕ)
deriving DecidableEq, Repr

/-- a thread's posting: an injection at its pushes, `new_jobs` at its counter update, `wake_scan` at a word or at the bits
loaded from it, `wake_specific_thread` before, in and after its critical section -/
inductive Post where
  | none
  | pushing (rest count : ℕ) (wasEmpty : Bool)
  | jobsLoad (kind : Kind) (numJobs : ℕ) (wasEmpty : Bool)
  | jobsCas (kind : Kind) (numJobs : ℕ) (wasEmpty : Bool) (old : ℕ)
  | scan (f : Scan)
  | bits (f : Scan)
  | enter (i : ℕ) (k : Caller)
  | inside (i : ℕ) (k : Caller)
  | notify (i : ℕ) (k : Caller)
deriving DecidableEq, Repr

structure St where
  word : ℕ
  mask : SleepMask
  injected : ℕ
  latch : ℕ → Latch
  worker : ℕ → Worker
  post : ℕ → Post

def Worker.new : Worker := ⟨.active, 0, 0, dummyCounter, false, .free⟩

/-- `Sleep::new` with every worker active -/
def init : St := ⟨0, fun _ => 0#64, 0, fun _ => .unset, fun _ => Worker.new, fun _ => .none⟩

namespace St

@[simps -fullyApplied]
def setWord (s : St) (x : ℕ) : St := { s with word := x }

@[simps -fullyApplied]
def setMask (s : St) (m : SleepMask) : St := { s with mask := m }

@[simps -fullyApplied]
def setInjected (s : St) (k : ℕ) : St := { s with injected := k }

@[simps -fullyApplied]
def setLatch (s : St) (l : ℕ) (x : Latch) : St := { s with latch := Function.update s.latch l x }

@[simps -fullyApplied]
def setWorker (s : St) (i : ℕ) (w : Worker) : St := { s with worker := Function.update s.worker i w }

@[simps -fullyApplied]
def setPost (s : St) (t : ℕ) (p : Post) : St := { s with post := Function.update s.post t p }

end St

/-! ## The idle loop -/

/-- `start_looking` -/
@[simps -fullyApplied]
def Worker.look (w : Worker) (l : ℕ) : Worker :=
  { w with pc := .probe, latch := l, rounds := 0, jobsCounter := dummyCounter }

@[simps -fullyApplied]
def Worker.wakeFully (w : Worker) (pc : Pc) : Worker := { w with rounds := 0, jobsCounter := dummyCounter, pc := pc }

@[simps -fullyApplied]
def Worker.wakePartly (w : Worker) (t : Tuning) (pc : Pc) : Worker :=
  { w with rounds := t.sleepyRound, jobsCounter := dummyCounter, pc := pc }

/-- the end of the announcing round -/
@[simps -fullyApplied]
def Worker.announced (w : Worker) (counters : ℕ) : Worker :=
  { w with jobsCounter := Pool.jobsCounter counters, rounds := (w.rounds + 1) % u32Range, pc := .probe }

@[simps -fullyApplied]
def Worker.goto (w : Worker) (pc : Pc) : Worker := { w with pc := pc }

/-- what `find_work` comes back with -/
inductive Found where
  | none
  | injected
  | elsewhere
deriving DecidableEq, Repr

/-- `wake_scan` is entered with a target -/
def startScan (kind : Kind) (target : ℕ) : Post := if target = 0 then .none else .scan ⟨kind, target, 0, 0, 0#64⟩

/-- the next step of worker `i` in its idle loop -/
def idleStep (tuning : Tuning) (s : St) (i : ℕ) (o : Found) : Option St :=
  let w := s.worker i
  match w.pc with
  | .active => none
  | .probe => some (s.setWorker i (w.goto (if s.latch w.latch = .set then .workFound else .find)))
  | .find =>
    match o with
    | .none => some (s.setWorker i (w.goto .noWork))
    | .injected =>
      if 0 < s.injected then some ((s.setInjected (s.injected - 1)).setWorker i (w.goto .workFound)) else none
    | .elsewhere => some (s.setWorker i (w.goto .workFound))
  | .noWork =>
    if w.rounds < tuning.spin ∨ w.rounds < tuning.sleepyRound then
      some (s.setWorker i { w with rounds := w.rounds + 1, pc := .probe })
    else if w.rounds = tuning.sleepyRound then some (s.setWorker i (w.goto .announceLoad))
    else some (s.setWorker i (w.goto .getSleepy))
  | .announceLoad =>
    if isSleepy (jobsCounter s.word) then some (s.setWorker i (w.announced s.word))
    else some (s.setWorker i (w.goto (.announceCas s.word)))
  | .announceCas old =>
    if s.word = old then
      some ((s.setWord (wrappingAdd old oneJec)).setWorker i (w.announced (wrappingAdd old oneJec)))
    else some (s.setWorker i (w.goto .announceLoad))
  | .getSleepy =>
    if s.latch w.latch = .unset then some ((s.setLatch w.latch .sleepy).setWorker i (w.goto .lock))
    else some (s.setWorker i (w.goto .probe))
  | .lock => if w.lock = .free then some (s.setWorker i { w with lock := .self, pc := .fallAsleep }) else none
  | .fallAsleep =>
    if s.latch w.latch = .sleepy then some ((s.setLatch w.latch .sleeping).setWorker i (w.goto .maskSet))
    else some (s.setWorker i (w.wakeFully .unlock))
  | .maskSet => some ((s.setMask (s.mask.set i)).setWorker i (w.goto .load))
  | .load =>
    if jobsCounter s.word ≠ w.jobsCounter then some (s.setWorker i (w.wakePartly tuning .maskClear))
    else some (s.setWorker i (w.goto (.commit s.word)))
  | .commit old =>
    if s.word = old then some ((s.setWord (wrappingAdd old oneSleeping)).setWorker i (w.goto .finalCheck))
    else some (s.setWorker i (w.goto .load))
  | .finalCheck => some (s.setWorker i (w.goto (if 0 < s.injected then .retract else .setBlocked)))
  | .retract => some ((s.setWord (wrappingSub s.word oneSleeping)).setWorker i (w.wakeFully .maskClear))
  | .maskClear => some ((s.setMask (s.mask.clear i)).setWorker i (w.goto .wakeUp))
  | .setBlocked => some (s.setWorker i { w with blocked := true, pc := .waitLoop })
  | .waitLoop =>
    -- `condvar.wait` gives up the mutex and parks in one step
    if w.blocked then some (s.setWorker i { w with lock := .free, pc := .waiting })
    else some (s.setWorker i (w.wakeFully .wakeUp))
  | .waiting => none
  | .relock => if w.lock = .free then some (s.setWorker i { w with lock := .self, pc := .waitLoop }) else none
  | .wakeUp => some (s.setWorker i (w.goto (if s.latch w.latch = .set then .unlock else .wakeUpCas)))
  | .wakeUpCas =>
    if s.latch w.latch = .sleeping then some ((s.setLatch w.latch .unset).setWorker i (w.goto .unlock))
    else some (s.setWorker i (w.goto .unlock))
  | .unlock => some (s.setWorker i { w with lock := .free, pc := .probe })
  | .workFound =>
    some (((s.setWord (wrappingSub s.word oneInactive)).setWorker i (w.goto .active)).setPost i
      (startScan .found (min (sleepingThreads s.word) 2)))

/-! ## Posting -/

/-- how many threads `new_jobs` wakes; the idle and sleeping counts are cast to `u32` -/
def numToWake (numJobs : ℕ) (wasEmpty : Bool) (counters : ℕ) : ℕ :=
  let idle := awakeButIdleThreads counters % u32Range
  let sleepers := sleepingThreads counters % u32Range
  if sleepers = 0 then 0
  else if wasEmpty = false then min numJobs sleepers
  else if idle < numJobs then min (numJobs - idle) sleepers
  else 0

/-- where a caller of `wake_specific_thread` goes on; a stale bit restarts the scan -/
def Caller.resume : Caller → Bool → Post
  | .latch _, _ => .none
  | .scan f, true => if f.target ≤ f.woken + 1 then .none else .bits { f with woken := f.woken + 1 }
  | .scan f, false => if f.woken < f.target then .scan { f with word := 0 } else .none

/-- a waker's step in the critical section of worker `i` -/
def sectionStep (s : St) (t i : ℕ) (k : Caller) : Section → St
  | .check =>
    if (s.worker i).blocked then s.setWorker i { s.worker i with blocked := false, lock := .waker t .maskClear }
    else s.setWorker i { s.worker i with lock := .waker t (.unlock false) }
  | .maskClear => (s.setMask (s.mask.clear i)).setWorker i { s.worker i with lock := .waker t .subSleeping }
  | .subSleeping =>
    (s.setWord (wrappingSub s.word oneSleeping)).setWorker i { s.worker i with lock := .waker t (.unlock true) }
  | .unlock woken =>
    (s.setWorker i { s.worker i with lock := .free }).setPost t (if woken then .notify i k else k.resume false)

/-- the next step of thread `t`'s posting; an injection pushes its jobs in segments of any size -/
def postStep (n : ℕ) (s : St) (t seg : ℕ) : Option St :=
  match s.post t with
  | .none => none
  | .pushing rest count wasEmpty =>
    if rest = 0 then
      some (s.setPost t (if 0 < count then .jobsLoad .injected (count % u32Range) wasEmpty else .none))
    else if 0 < seg ∧ seg ≤ rest then
      some ((s.setInjected (s.injected + seg)).setPost t (.pushing (rest - seg) count wasEmpty))
    else none
  | .jobsLoad kind numJobs wasEmpty =>
    if isSleepy (jobsCounter s.word) then some (s.setPost t (.jobsCas kind numJobs wasEmpty s.word))
    else some (s.setPost t (startScan kind (numToWake numJobs wasEmpty s.word)))
  | .jobsCas kind numJobs wasEmpty old =>
    if s.word = old then
      some ((s.setWord (wrappingAdd old oneJec)).setPost t
        (startScan kind (numToWake numJobs wasEmpty (wrappingAdd old oneJec))))
    else some (s.setPost t (.jobsLoad kind numJobs wasEmpty))
  | .scan f =>
    if f.word < SleepMask.nWords n then some (s.setPost t (.bits { f with bits := s.mask f.word }))
    else some (s.setPost t .none)
  | .bits f =>
    if f.bits = 0#64 then some (s.setPost t (.scan { f with word := f.word + 1 }))
    else
      let b := trailingZeros f.bits
      some (s.setPost t (.enter (f.word * bitsPerWord + b) (.scan { f with bits := f.bits &&& ~~~(1#64 <<< b) })))
  | .enter i k =>
    if i < n ∧ (s.worker i).lock = .free then
      some ((s.setWorker i { s.worker i with lock := .waker t .check }).setPost t (.inside i k))
    else none
  | .inside i k =>
    match (s.worker i).lock with
    | .waker t' sec => if t' = t then some (sectionStep s t i k sec) else none
    | _ => none
  | .notify i k =>
    -- `notify_one` does nothing when nobody waits
    let woken := if (s.worker i).pc = .waiting then s.setWorker i ((s.worker i).goto .relock) else s
    some (woken.setPost t (k.resume true))

/-! ## Steps -/

inductive Act where
  /-- a worker starts its idle loop on a latch -/
  | look (i l : ℕ)
  | idle (i : ℕ) (o : Found)
  | spurious (i : ℕ)
  /-- `inject_batch` of `count` jobs, or `inject` of one -/
  | inject (t count : ℕ)
  /-- `new_internal_jobs` after pushes on the thread's own deque -/
  | internal (t numJobs : ℕ) (wasEmpty : Bool)
  | setLatch (t l : ℕ)
  | post (t seg : ℕ)
deriving DecidableEq, Repr

/-- a thread outside idle loops and postings -/
def free (n : ℕ) (s : St) (t : ℕ) : Prop := s.post t = .none ∧ (t < n → (s.worker t).pc = .active)

instance (n : ℕ) (s : St) (t : ℕ) : Decidable (free n s t) := inferInstanceAs (Decidable (_ ∧ _))

/-- one step of a pool of `n` workers; latch `l` belongs to the idle loops of worker `owner l` -/
def step (n : ℕ) (tuning : Tuning) (owner : ℕ → ℕ) (s : St) : Act → Option St
  | .look i l =>
    if i < n ∧ owner l = i ∧ free n s i then
      some ((s.setWord (wrappingAdd s.word oneInactive)).setWorker i ((s.worker i).look l))
    else none
  | .idle i o => if i < n then idleStep tuning s i o else none
  | .spurious i =>
    if i < n ∧ (s.worker i).pc = .waiting then some (s.setWorker i ((s.worker i).goto .relock)) else none
  | .inject t count => if free n s t then some (s.setPost t (.pushing count count (decide (s.injected = 0)))) else none
  | .internal t numJobs wasEmpty =>
    if free n s t then some (s.setPost t (.jobsLoad .internal (numJobs % u32Range) wasEmpty)) else none
  | .setLatch t l =>
    if free n s t ∧ owner l < n then
      some ((s.setLatch l .set).setPost t (if s.latch l = .sleeping then .enter (owner l) (.latch l) else .none))
    else none
  | .post t seg => postStep n s t seg

def run (n : ℕ) (tuning : Tuning) (owner : ℕ → ℕ) (s : St) (acts : List Act) : Option St :=
  acts.foldlM (step n tuning owner) s

end YouPipe.Pool
