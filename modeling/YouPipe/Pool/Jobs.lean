/-
The pool's queues and worker loops (`pool/registry.rs`: `inject`, `inject_batch`, `push`, `push_batch`, `find_work`,
`wait_until_cold`, `wait_until_out_of_work`, `terminate`) as far as they decide which job runs when.

A worker is a stack of frames over its base loop, and only the top frame steps: a running job submits, starts a nested wait or
finishes; a waiting one searches (own deque, injector, peers) and runs what it finds on top of itself. The base loop waits for
the terminate latch in the same way and then drains its deque and the injector until a whole pass finds nothing.

Jobs are numbered in the order of submission. A batch is submitted one job at a time. The injector is a FIFO queue, a local
deque is pushed and popped by its owner at one end and stolen from at the other; a push is refused when the deque is full, or
while slots of a steal in progress are still taken (`busy`). When a nested wait's latch is set is left open. Sleeping is left
out: it only delays a search.

Result: `jobs_exactly_once`, over every reachable state.
-/
import Mathlib.Tactic
import YouPipe.Core.Machine
import YouPipe.Core.Tally
import YouPipe.Pool.Counters

namespace YouPipe.Jobs

open YouPipe.Tally YouPipe.Pool

/-! ## Model -/

def localDequeCapacity : ℕ := 256

/-- the places of `wait_until_cold`: the outer and inner probes, the pop before going idle, and the three sources of
`find_work` -/
inductive Look where
  | outer
  | pop
  | probe
  | own
  | injected
  | steal
deriving DecidableEq, Repr

/-- a job on a worker's stack, running or in a nested wait -/
structure Frame where
  job : ℕ
  wait : Option Look
deriving DecidableEq, Repr

/-- the places of `wait_until_out_of_work` -/
inductive Base where
  | idle (l : Look)
  | drainLocal (ran : Bool)
  | drainInjected (ran : Bool)
  | leaving
  | stopped
deriving DecidableEq, Repr

/-- the deque lists its jobs from the oldest to the newest, the frames from the top of the stack down -/
structure Worker where
  deque : List ℕ
  frames : List Frame
  base : Base
deriving DecidableEq, Repr

@[simps]
def Worker.setDeque (w : Worker) (d : List ℕ) : Worker := ⟨d, w.frames, w.base⟩

@[simps]
def Worker.setFrames (w : Worker) (fs : List Frame) : Worker := ⟨w.deque, fs, w.base⟩

@[simps]
def Worker.setBase (w : Worker) (b : Base) : Worker := ⟨w.deque, w.frames, b⟩

/-- `handles` is `terminate_count`; the terminate latches of the first `signalled` workers are set; `submitted` jobs have a
number; `started` and `finished` list the jobs whose execution began and ended -/
structure St where
  handles : ℕ
  signalled : ℕ
  injector : List ℕ
  worker : ℕ → Worker
  submitted : ℕ
  started : List ℕ
  finished : List ℕ

def init : St := ⟨1, 0, [], fun _ => ⟨[], [], .idle .outer⟩, 0, [], []⟩

namespace St

def setWorker (s : St) (i : ℕ) (w : Worker) : St := { s with worker := Function.update s.worker i w }

/-- `execute`: a frame on top of the stack of worker `i` -/
def start (s : St) (i j : ℕ) : St :=
  { s.setWorker i ((s.worker i).setFrames (⟨j, none⟩ :: (s.worker i).frames)) with started := s.started ++ [j] }

/-- `try_pop_local` -/
def popLocal (s : St) (i : ℕ) : Option (ℕ × St) :=
  (s.worker i).deque.getLast?.map fun j => (j, s.setWorker i ((s.worker i).setDeque (s.worker i).deque.dropLast))

/-- `pop_injected_job` -/
def popInjected (s : St) : Option (ℕ × St) := s.injector.head?.map fun j => (j, { s with injector := s.injector.tail })

/-- a successful steal from worker `v` -/
def stealFrom (s : St) (v : ℕ) : Option (ℕ × St) :=
  (s.worker v).deque.head?.map fun j => (j, s.setWorker v ((s.worker v).setDeque (s.worker v).deque.tail))

/-- `inject` -/
def inject (s : St) : St := { s with injector := s.injector ++ [s.submitted], submitted := s.submitted + 1 }

/-- `WorkerThread::push`: overflow spills to the injector -/
def push (s : St) (i : ℕ) (busy : Bool) : St :=
  if (s.worker i).deque.length < localDequeCapacity ∧ busy = false then
    { s.setWorker i ((s.worker i).setDeque ((s.worker i).deque ++ [s.submitted])) with submitted := s.submitted + 1 }
  else s.inject

end St

/-- what a step of the wait loop comes to: its latch is set, it goes on at another place, or it has a job in hand -/
inductive Found where
  | leave
  | keep (l : Look)
  | job (j : ℕ) (s : St)

/-- a job, or the place to go on at -/
def orElse (x : Option (ℕ × St)) (l : Look) : Found :=
  match x with
  | some (j, s) => .job j s
  | none => .keep l

/-- one step of `wait_until_cold` on worker `i`; `set` is what a probe reads, and without a `victim` the scan of the peers
found nothing -/
def lookStep (n : ℕ) (s : St) (i : ℕ) (set : Bool) (victim : Option ℕ) : Look → Option Found
  | .outer => some (if set then .leave else .keep .pop)
  | .pop => some (orElse (s.popLocal i) .probe)
  | .probe => some (if set then .leave else .keep .own)
  | .own => some (orElse (s.popLocal i) .injected)
  | .injected => some (orElse s.popInjected .steal)
  | .steal =>
    match victim with
    | none => some (.keep .probe)
    | some v => if v < n ∧ v ≠ i then (s.stealFrom v).map fun p => .job p.1 p.2 else none

def St.setFrames (s : St) (i : ℕ) (fs : List Frame) : St := s.setWorker i ((s.worker i).setFrames fs)

def St.setBase (s : St) (i : ℕ) (b : Base) : St := s.setWorker i ((s.worker i).setBase b)

/-- one step of the base loop, with no job on the stack -/
def baseStep (n : ℕ) (s : St) (i : ℕ) (victim : Option ℕ) : Option St :=
  match (s.worker i).base with
  | .idle l =>
    (lookStep n s i (decide (i < s.signalled)) victim l).map fun
      | .leave => s.setBase i (.drainLocal false)
      | .keep l => s.setBase i (.idle l)
      | .job j s => (s.setBase i (.idle .outer)).start i j
  | .drainLocal ran =>
    match s.popLocal i with
    | some (j, s) => some ((s.setBase i (.drainLocal true)).start i j)
    | none => some (s.setBase i (.drainInjected ran))
  | .drainInjected ran =>
    match s.popInjected with
    | some (j, s) => some ((s.setBase i (.drainInjected true)).start i j)
    | none => some (s.setBase i (if ran then .drainLocal false else .leaving))
  | .leaving => some (s.setBase i .stopped)
  | .stopped => none

/-- one step of the search of worker `i`: of the nested wait on top of its stack, or of its base loop -/
def searchStep (n : ℕ) (s : St) (i : ℕ) (set : Bool) (victim : Option ℕ) : Option St :=
  match (s.worker i).frames with
  | [] => baseStep n s i victim
  | ⟨_, none⟩ :: _ => none
  | ⟨j, some l⟩ :: rest =>
    (lookStep n s i set victim l).map fun
      | .leave => s.setFrames i (⟨j, none⟩ :: rest)
      | .keep l => s.setFrames i (⟨j, some l⟩ :: rest)
      | .job k s => (s.setFrames i (⟨j, some .outer⟩ :: rest)).start i k

/-- what the running job on top of a stack does -/
inductive Move where
  | submit (busy : Bool)
  | wait
  | finish
deriving DecidableEq, Repr

def moveStep (s : St) (i : ℕ) (m : Move) : Option St :=
  match (s.worker i).frames with
  | ⟨j, none⟩ :: rest =>
    match m with
    | .submit busy => some (s.push i busy)
    | .wait => some (s.setFrames i (⟨j, some .outer⟩ :: rest))
    | .finish => some { s.setFrames i rest with finished := s.finished ++ [j] }
  | _ => none

inductive Act where
  | clone
  | dropHandle
  /-- `terminate` sets the next worker's latch -/
  | signal
  | inject
  | search (i : ℕ) (set : Bool) (victim : Option ℕ)
  | move (i : ℕ) (m : Move)
deriving DecidableEq, Repr

/-- one step of a pool of `n` workers -/
def step (n : ℕ) (s : St) : Act → Option St
  | .clone => if 0 < s.handles then some { s with handles := s.handles + 1 } else none
  | .dropHandle => if 0 < s.handles then some { s with handles := s.handles - 1 } else none
  | .signal => if s.handles = 0 ∧ s.signalled < n then some { s with signalled := s.signalled + 1 } else none
  -- submissions from outside are made through a handle
  | .inject => if 0 < s.handles then some s.inject else none
  | .search i set victim => if i < n then searchStep n s i set victim else none
  | .move i m => if i < n then moveStep s i m else none

def run (n : ℕ) (s : St) (acts : List Act) : Option St := acts.foldlM (step n) s

/-! ## Books -/

/-- the jobs waiting in a queue -/
def queued (n : ℕ) (s : St) : Multiset ℕ := (s.injector : Multiset ℕ) + ∑ i ∈ Finset.range n, ((s.worker i).deque : Multiset ℕ)

/-- the jobs on the stacks -/
def onStack (n : ℕ) (s : St) : Multiset ℕ := ∑ i ∈ Finset.range n, (((s.worker i).frames.map Frame.job : List ℕ) : Multiset ℕ)

/-- every submitted job is in exactly one queue or was started once, and every started job is on a stack or finished -/
structure Books (n : ℕ) (s : St) : Prop where
  jobs : queued n s + (s.started : Multiset ℕ) = Multiset.range s.submitted
  frames : (s.started : Multiset ℕ) = (s.finished : Multiset ℕ) + onStack n s

section Sums

variable {n i : ℕ} {s : St}

theorem sum_setWorker (hi : i < n) (s : St) (w : Worker) (g : Worker → Multiset ℕ) :
    ∑ j ∈ Finset.range n, g ((s.setWorker i w).worker j) + g (s.worker i) = ∑ j ∈ Finset.range n, g (s.worker j) + g w := by
  have hcomp : (fun j => g ((s.setWorker i w).worker j)) = Function.update (fun j => g (s.worker j)) i (g w) := by
    funext j
    exact Function.apply_update (fun _ x => g x) s.worker i w j
  rw [hcomp]
  exact sum_update_add (Finset.mem_range.2 hi) _ _

theorem queued_setWorker (hi : i < n) (s : St) (w : Worker) :
    queued n (s.setWorker i w) + ((s.worker i).deque : Multiset ℕ) = queued n s + (w.deque : Multiset ℕ) := by
  have h := sum_setWorker hi s w fun x => (x.deque : Multiset ℕ)
  simp only [queued, add_assoc, h]
  rfl

theorem onStack_setWorker (hi : i < n) (s : St) (w : Worker) :
    onStack n (s.setWorker i w) + (((s.worker i).frames.map Frame.job : List ℕ) : Multiset ℕ)
      = onStack n s + ((w.frames.map Frame.job : List ℕ) : Multiset ℕ) :=
  sum_setWorker hi s w fun x => ((x.frames.map Frame.job : List ℕ) : Multiset ℕ)

/-- a worker changes and keeps its deque -/
theorem queued_setWorker_of_deque (hi : i < n) {w : Worker} (hw : w.deque = (s.worker i).deque) :
    queued n (s.setWorker i w) = queued n s := by
  have h := queued_setWorker hi s w
  rw [hw] at h
  exact add_right_cancel h

theorem onStack_setWorker_of_frames (hi : i < n) {w : Worker}
    (hw : w.frames.map Frame.job = (s.worker i).frames.map Frame.job) : onStack n (s.setWorker i w) = onStack n s := by
  have h := onStack_setWorker hi s w
  rw [hw] at h
  exact add_right_cancel h

end Sums

/-! ## Taking a job -/

/-- `s'` is `s` without the job `j` in one of its queues -/
structure Taken (n j : ℕ) (s s' : St) : Prop where
  queued : queued n s = queued n s' + {j}
  stack : ∀ i, (s'.worker i).frames = (s.worker i).frames
  base : ∀ i, (s'.worker i).base = (s.worker i).base
  deque : ∀ i, (s.worker i).deque = [] → (s'.worker i).deque = []
  injector : s.injector = [] → s'.injector = []
  rest : s'.handles = s.handles ∧ s'.signalled = s.signalled ∧ s'.submitted = s.submitted ∧ s'.started = s.started
    ∧ s'.finished = s.finished

section Take

variable {n i j : ℕ} {s s' : St}

/-- a worker gives up one job of its deque -/
theorem taken_setDeque (hi : i < n) {d : List ℕ} (hd : ((s.worker i).deque : Multiset ℕ) = (d : Multiset ℕ) + {j}) :
    Taken n j s (s.setWorker i ((s.worker i).setDeque d)) where
  queued := by
    have h := queued_setWorker hi s ((s.worker i).setDeque d)
    have h' : Jobs.queued n (s.setWorker i ((s.worker i).setDeque d)) + {j} + (d : Multiset ℕ)
        = Jobs.queued n s + (d : Multiset ℕ) := by
      rw [Worker.setDeque_deque] at h
      rw [← h, hd, add_assoc, add_comm ({j} : Multiset ℕ)]
    exact (add_right_cancel h').symm
  stack := by
    intro k
    rcases eq_or_ne k i with rfl | hne
    · simp [St.setWorker, Worker.setDeque]
    · simp [St.setWorker, hne]
  base := by
    intro k
    rcases eq_or_ne k i with rfl | hne
    · simp [St.setWorker, Worker.setDeque]
    · simp [St.setWorker, hne]
  deque := by
    intro k hk
    rcases eq_or_ne k i with rfl | hne
    · rw [hk] at hd
      exact absurd (congrArg Multiset.card hd) (by simp)
    · simpa [St.setWorker, hne] using hk
  injector := id
  rest := ⟨rfl, rfl, rfl, rfl, rfl⟩

theorem popLocal_taken (hi : i < n) (h : s.popLocal i = some (j, s')) : Taken n j s s' := by
  unfold St.popLocal at h
  obtain ⟨k, hk, he⟩ := Option.map_eq_some_iff.1 h
  cases he
  refine taken_setDeque hi ?_
  have hne : (s.worker i).deque ≠ [] := by
    intro h0
    rw [h0] at hk
    cases hk
  rw [List.getLast?_eq_some_getLast hne] at hk
  cases hk
  conv_lhs => rw [← List.dropLast_append_getLast hne]
  rw [← Multiset.coe_add, Multiset.coe_singleton]

theorem stealFrom_taken (hi : i < n) (h : s.stealFrom i = some (j, s')) : Taken n j s s' := by
  unfold St.stealFrom at h
  obtain ⟨k, hk, he⟩ := Option.map_eq_some_iff.1 h
  cases he
  refine taken_setDeque hi ?_
  obtain ⟨rest, hr⟩ := List.head?_eq_some_iff.1 hk
  rw [hr, List.tail_cons, ← Multiset.cons_coe, ← Multiset.singleton_add, add_comm]

theorem popInjected_taken (h : s.popInjected = some (j, s')) : Taken n j s s' := by
  unfold St.popInjected at h
  obtain ⟨k, hk, he⟩ := Option.map_eq_some_iff.1 h
  cases he
  obtain ⟨rest, hr⟩ := List.head?_eq_some_iff.1 hk
  refine ⟨?_, fun _ => rfl, fun _ => rfl, fun _ => id, fun h0 => ?_, ⟨rfl, rfl, rfl, rfl, rfl⟩⟩
  · simp only [queued, hr, List.tail_cons, ← Multiset.cons_coe, ← Multiset.singleton_add]
    abel
  · rw [h0] at hr
    cases hr

theorem lookStep_taken (hi : i < n) {set : Bool} {victim : Option ℕ} {l : Look}
    (h : lookStep n s i set victim l = some (.job j s')) : Taken n j s s' := by
  have horElse : ∀ {x : Option (ℕ × St)} {l : Look}, orElse x l = .job j s' → x = some (j, s') := by
    intro x l hx
    unfold orElse at hx
    split at hx
    · cases hx; rfl
    · cases hx
  cases l with
  | outer | probe =>
    simp only [lookStep, Option.some.injEq] at h
    split_ifs at h
  | pop | own => exact popLocal_taken hi (horElse (Option.some.inj h))
  | injected => exact popInjected_taken (horElse (Option.some.inj h))
  | steal =>
    simp only [lookStep] at h
    split at h
    · cases h
    · split_ifs at h with hv
      obtain ⟨p, hp, he⟩ := Option.map_eq_some_iff.1 h
      cases he
      exact stealFrom_taken hv.1 hp

/-- the wait ends only at a probe that reads its latch set -/
theorem lookStep_leave {set : Bool} {victim : Option ℕ} {l : Look} (h : lookStep n s i set victim l = some .leave) :
    set = true := by
  cases l with
  | outer | probe =>
    cases set with
    | true => rfl
    | false => cases h
  | pop | own | injected =>
    simp only [lookStep, orElse, Option.some.injEq] at h
    split at h <;> cases h
  | steal =>
    simp only [lookStep] at h
    split at h
    · cases h
    · split_ifs at h
      obtain ⟨p, -, hp⟩ := Option.map_eq_some_iff.1 h
      cases hp

end Take

/-! ## Invariant -/

/-- has seen its deque and the injector empty in a pass without a job -/
def Base.away : Base → Bool
  | .leaving | .stopped => true
  | _ => false

/-- in the drain, with the deque seen empty and nothing run since -/
def Base.clean : Base → Bool
  | .drainInjected false | .leaving | .stopped => true
  | _ => false

def Base.draining : Base → Bool
  | .idle _ => false
  | _ => true

/-- the drain begins after the latch is set; a clean worker has nothing of its own -/
structure Worker.Ok (latch : Prop) (w : Worker) : Prop where
  latched : w.base.draining = true → latch
  empty : w.base.clean = true → w.deque = [] ∧ w.frames = []

structure Inv (n : ℕ) (s : St) : Prop where
  books : Books n s
  ok : ∀ i, (s.worker i).Ok (i < s.signalled)
  handles : 0 < s.signalled → s.handles = 0
  /-- a worker that is not away will see the injector again -/
  injector : s.injector ≠ [] → ∃ i < n, (s.worker i).base.away = false

theorem Base.clean_of_away {b : Base} (h : b.away = true) : b.clean = true := by
  cases b <;> simp_all [Base.away, Base.clean]

theorem Base.draining_of_clean {b : Base} (h : b.clean = true) : b.draining = true := by
  cases b <;> simp_all [Base.clean, Base.draining]

section Steps

variable {n i j : ℕ} {s s' s1 : St}

theorem init_inv (hn : 0 < n) : Inv n init where
  books := ⟨by simp [queued, init], by simp [onStack, init]⟩
  ok := fun _ => ⟨fun h => Bool.noConfusion h, fun h => Bool.noConfusion h⟩
  handles := fun h => absurd h (lt_irrefl _)
  injector := fun _ => ⟨0, hn, rfl⟩

theorem ok_setWorker {w : Worker} (h : ∀ k, (s.worker k).Ok (k < s.signalled)) (hw : w.Ok (i < s.signalled)) (k : ℕ) :
    ((s.setWorker i w).worker k).Ok (k < s.signalled) := by
  rcases eq_or_ne k i with rfl | hne
  · simpa [St.setWorker] using hw
  · simpa [St.setWorker, hne] using h k

/-- somebody else is not away, or the worker that changes is not -/
theorem awake_setWorker {w : Worker} (hi : i < n) (h : ∃ k < n, (s.worker k).base.away = false) (hw : w.base.away = false) :
    ∃ k < n, ((s.setWorker i w).worker k).base.away = false := by
  obtain ⟨k, hk, hawake⟩ := h
  rcases eq_or_ne k i with rfl | hne
  · exact ⟨k, hk, by simpa [St.setWorker] using hw⟩
  · exact ⟨k, hk, by simpa [St.setWorker, hne] using hawake⟩

/-- a worker moves on without touching a job -/
theorem Inv.control (h : Inv n s) (hi : i < n) {w : Worker} (hd : w.deque = (s.worker i).deque)
    (hf : w.frames.map Frame.job = (s.worker i).frames.map Frame.job) (hok : w.Ok (i < s.signalled))
    (haway : w.base.away = true → s.injector = [] ∨ (s.worker i).base.away = true) : Inv n (s.setWorker i w) where
  books := by
    refine ⟨?_, ?_⟩
    · rw [queued_setWorker_of_deque hi hd]
      exact h.books.jobs
    · rw [onStack_setWorker_of_frames hi hf]
      exact h.books.frames
  ok := ok_setWorker h.ok hok
  handles := h.handles
  injector := by
    intro hne
    obtain ⟨k, hk, hawake⟩ := h.injector hne
    cases hw : w.base.away with
    | false => exact awake_setWorker hi ⟨k, hk, hawake⟩ hw
    | true =>
      rcases haway hw with h0 | hold
      · exact absurd h0 hne
      · refine ⟨k, hk, ?_⟩
        have hki : k ≠ i := by
          rintro rfl
          rw [hawake] at hold
          cases hold
        simpa [St.setWorker, hki] using hawake

theorem start_setWorker (s : St) (i j : ℕ) (w : Worker) :
    (s.setWorker i w).start i j
      = { s.setWorker i (w.setFrames (⟨j, none⟩ :: w.frames)) with started := s.started ++ [j] } := by
  simp [St.start, St.setWorker]

/-- a job taken from a queue goes on top of a stack whose worker is not away -/
theorem Inv.startJob (h : Inv n s) (hi : i < n) (ht : Taken n j s s1) {w : Worker} (hd : w.deque = (s1.worker i).deque)
    (hf : w.frames.map Frame.job = (s.worker i).frames.map Frame.job) (hclean : w.base.clean = false)
    (hlatch : w.base.draining = true → i < s.signalled) : Inv n ((s1.setWorker i w).start i j) := by
  obtain ⟨hhandles, hsignalled, hsubmitted, hstarted, hfinished⟩ := ht.rest
  have haway : w.base.away = false := by
    by_contra hne
    rw [Base.clean_of_away (Bool.eq_true_of_not_eq_false hne)] at hclean
    cases hclean
  have hok : ∀ k, (s1.worker k).Ok (k < s1.signalled) := by
    intro k
    rw [hsignalled]
    refine ⟨fun hk => (h.ok k).latched (by rwa [← ht.base k]), fun hk => ?_⟩
    obtain ⟨hdeque, hframes⟩ := (h.ok k).empty (by rwa [← ht.base k])
    exact ⟨ht.deque k hdeque, by rw [ht.stack k, hframes]⟩
  rw [start_setWorker]
  refine ⟨⟨?_, ?_⟩, ?_, ?_, ?_⟩
  · have hjobs := h.books.jobs
    rw [ht.queued] at hjobs
    show queued n (s1.setWorker i _) + ((s1.started ++ [j] : List ℕ) : Multiset ℕ) = Multiset.range s1.submitted
    rw [queued_setWorker_of_deque (w := w.setFrames (⟨j, none⟩ :: w.frames)) hi hd, hstarted, hsubmitted, ← hjobs, ← Multiset.coe_add,
      Multiset.coe_singleton]
    abel
  · have hold : onStack n s1 = onStack n s := Finset.sum_congr rfl fun k _ => by rw [ht.stack k]
    have hnew := onStack_setWorker hi s1 (w.setFrames (⟨j, none⟩ :: w.frames))
    rw [hold, ht.stack i, ← hf] at hnew
    have hstack : onStack n (s1.setWorker i (w.setFrames (⟨j, none⟩ :: w.frames))) = onStack n s + {j} := by
      refine add_right_cancel (hnew.trans ?_)
      rw [Worker.setFrames, List.map_cons, ← Multiset.cons_coe, ← Multiset.singleton_add, add_assoc]
    show ((s1.started ++ [j] : List ℕ) : Multiset ℕ) = (s1.finished : Multiset ℕ) + onStack n (s1.setWorker i _)
    rw [hstack, hstarted, hfinished, ← Multiset.coe_add, Multiset.coe_singleton, h.books.frames, add_assoc]
  · refine ok_setWorker hok ⟨fun hk => hsignalled ▸ hlatch hk, fun hk => ?_⟩
    rw [show w.base.clean = true from hk] at hclean
    cases hclean
  · intro hpos
    show s1.handles = 0
    rw [hhandles]
    exact h.handles (hsignalled ▸ hpos)
  · intro hne
    exact ⟨i, hi, by simpa [St.setWorker] using haway⟩

/-- a running job's worker is not clean -/
theorem Inv.not_clean (h : Inv n s) (hne : (s.worker i).frames ≠ []) : (s.worker i).base.clean = false := by
  by_contra hc
  exact hne ((h.ok i).empty (Bool.eq_true_of_not_eq_false hc)).2

/-- an injection while somebody is not away -/
theorem Inv.inject (h : Inv n s) (hawake : ∃ i < n, (s.worker i).base.away = false) : Inv n s.inject where
  books := by
    refine ⟨?_, h.books.frames⟩
    have hjobs := h.books.jobs
    simp only [queued] at hjobs
    simp only [queued, St.inject, ← Multiset.coe_add, Multiset.coe_singleton, Multiset.range_succ,
      ← Multiset.singleton_add, ← hjobs]
    abel
  ok := h.ok
  handles := h.handles
  injector := fun _ => hawake

theorem Inv.push (h : Inv n s) (hi : i < n) (hne : (s.worker i).frames ≠ []) (busy : Bool) : Inv n (s.push i busy) := by
  have hclean := h.not_clean hne
  have haway : (s.worker i).base.away = false := by
    by_contra hc
    rw [Base.clean_of_away (Bool.eq_true_of_not_eq_false hc)] at hclean
    cases hclean
  unfold St.push
  split_ifs
  · refine ⟨⟨?_, ?_⟩, ?_, h.handles, ?_⟩
    · have hq := queued_setWorker hi s ((s.worker i).setDeque ((s.worker i).deque ++ [s.submitted]))
      rw [Worker.setDeque_deque, ← Multiset.coe_add, Multiset.coe_singleton, ← add_assoc, add_right_comm] at hq
      show queued n (s.setWorker i _) + (s.started : Multiset ℕ) = Multiset.range (s.submitted + 1)
      rw [add_right_cancel hq, Multiset.range_succ, ← h.books.jobs, ← Multiset.singleton_add]
      abel
    · show (s.started : Multiset ℕ) = (s.finished : Multiset ℕ) + onStack n (s.setWorker i _)
      rw [onStack_setWorker_of_frames (w := (s.worker i).setDeque ((s.worker i).deque ++ [s.submitted])) hi rfl]
      exact h.books.frames
    · refine ok_setWorker h.ok ⟨(h.ok i).latched, fun hc => ?_⟩
      rw [Worker.setDeque_base, hclean] at hc
      cases hc
    · intro hinj
      exact awake_setWorker hi (h.injector hinj) haway
  · exact h.inject ⟨i, hi, haway⟩

theorem Inv.finish (h : Inv n s) (hi : i < n) {f : Frame} {rest : List Frame} (hf : (s.worker i).frames = f :: rest) :
    Inv n { s.setFrames i rest with finished := s.finished ++ [f.job] } := by
  have hclean := h.not_clean (i := i) (by simp [hf])
  refine ⟨⟨?_, ?_⟩, ?_, h.handles, ?_⟩
  · show queued n (s.setWorker i _) + (s.started : Multiset ℕ) = _
    rw [queued_setWorker_of_deque (w := (s.worker i).setFrames rest) hi rfl]
    exact h.books.jobs
  · have hs := onStack_setWorker hi s ((s.worker i).setFrames rest)
    rw [hf, Worker.setFrames_frames, List.map_cons, ← Multiset.cons_coe, ← Multiset.singleton_add, ← add_assoc] at hs
    show (s.started : Multiset ℕ) = ((s.finished ++ [f.job] : List ℕ) : Multiset ℕ) + onStack n (s.setWorker i _)
    rw [h.books.frames, ← add_right_cancel hs, ← Multiset.coe_add, Multiset.coe_singleton]
    abel
  · refine ok_setWorker h.ok ⟨(h.ok i).latched, fun hc => ?_⟩
    rw [Worker.setFrames_base, hclean] at hc
    cases hc
  · intro hinj
    refine awake_setWorker hi (h.injector hinj) ?_
    by_contra hc
    rw [Worker.setFrames_base] at hc
    rw [Base.clean_of_away (Bool.eq_true_of_not_eq_false hc)] at hclean
    cases hclean

theorem moveStep_inv (h : Inv n s) (hi : i < n) {m : Move} (hs : moveStep s i m = some s') : Inv n s' := by
  unfold moveStep at hs
  split at hs
  · next j rest hf =>
    have hclean := h.not_clean (i := i) (by simp [hf])
    cases m with
    | submit busy => cases hs; exact h.push hi (by simp [hf]) busy
    | finish => cases hs; exact h.finish hi hf
    | wait =>
      cases hs
      refine h.control hi rfl (by simp [hf]) ⟨(h.ok i).latched, fun hc => ?_⟩ fun hw => Or.inr hw
      rw [Worker.setFrames_base, hclean] at hc
      cases hc
  · cases hs

/-- a pass over the base loop, with nothing on the stack -/
theorem baseStep_inv (h : Inv n s) (hi : i < n) (hf : (s.worker i).frames = []) {victim : Option ℕ}
    (hs : baseStep n s i victim = some s') : Inv n s' := by
  have hok := h.ok i
  unfold baseStep at hs
  split at hs
  case h_1 l hb =>
    obtain ⟨found, hfound, hs⟩ := Option.map_eq_some_iff.1 hs
    cases found with
    | leave =>
      cases hs
      have hlatch : i < s.signalled := of_decide_eq_true (lookStep_leave hfound)
      exact h.control hi rfl rfl ⟨fun _ => hlatch, fun hc => Bool.noConfusion hc⟩ fun hw => Bool.noConfusion hw
    | keep l' =>
      cases hs
      exact h.control hi rfl rfl ⟨fun hd => Bool.noConfusion hd, fun hc => Bool.noConfusion hc⟩ fun hw => Bool.noConfusion hw
    | job j s1 =>
      cases hs
      have ht := lookStep_taken hi hfound
      exact h.startJob hi ht rfl (by simp [ht.stack i]) rfl fun hd => Bool.noConfusion hd
  case h_2 ran hb =>
    have hlatch : i < s.signalled := hok.latched (by rw [hb]; rfl)
    split at hs
    · next j s1 hp =>
      cases hs
      have ht := popLocal_taken hi hp
      exact h.startJob hi ht rfl (by simp [ht.stack i]) rfl fun _ => hlatch
    · next hp =>
      cases hs
      have hd : (s.worker i).deque = [] := List.getLast?_eq_none_iff.1 (Option.map_eq_none_iff.1 hp)
      exact h.control hi rfl rfl ⟨fun _ => hlatch, fun _ => ⟨hd, hf⟩⟩ fun hw => Bool.noConfusion hw
  case h_3 ran hb =>
    have hlatch : i < s.signalled := hok.latched (by rw [hb]; rfl)
    split at hs
    · next j s1 hp =>
      cases hs
      have ht := popInjected_taken (n := n) hp
      exact h.startJob hi ht rfl (by simp [ht.stack i]) rfl fun _ => hlatch
    · next hp =>
      have hinj : s.injector = [] := List.head?_eq_none_iff.1 (Option.map_eq_none_iff.1 hp)
      cases hs
      cases ran with
      | true => exact h.control hi rfl rfl ⟨fun _ => hlatch, fun hc => Bool.noConfusion hc⟩ fun hw => Bool.noConfusion hw
      | false => exact h.control hi rfl rfl ⟨fun _ => hlatch, fun _ => hok.empty (by rw [hb]; rfl)⟩ fun _ => Or.inl hinj
  case h_4 hb =>
    cases hs
    have hempty := hok.empty (by rw [hb]; rfl)
    exact h.control hi rfl rfl ⟨fun _ => hok.latched (by rw [hb]; rfl), fun _ => hempty⟩ fun _ => Or.inr (by rw [hb]; rfl)
  case h_5 => cases hs

theorem searchStep_inv (h : Inv n s) (hi : i < n) {set : Bool} {victim : Option ℕ}
    (hs : searchStep n s i set victim = some s') : Inv n s' := by
  unfold searchStep at hs
  split at hs
  case h_1 hf => exact baseStep_inv h hi hf hs
  case h_2 => cases hs
  case h_3 j l rest hf =>
    have hclean := h.not_clean (i := i) (by simp [hf])
    have hok : ∀ fs, ((s.worker i).setFrames fs).Ok (i < s.signalled) := by
      refine fun fs => ⟨(h.ok i).latched, fun hc => ?_⟩
      rw [Worker.setFrames_base, hclean] at hc
      cases hc
    obtain ⟨found, hfound, hs⟩ := Option.map_eq_some_iff.1 hs
    cases found with
    | leave => cases hs; exact h.control hi rfl (by simp [hf]) (hok _) fun hw => Or.inr hw
    | keep l' => cases hs; exact h.control hi rfl (by simp [hf]) (hok _) fun hw => Or.inr hw
    | job k s1 =>
      cases hs
      have ht := lookStep_taken hi hfound
      refine h.startJob hi ht rfl (by simp [hf]) ?_ ?_
      · rw [Worker.setFrames_base, ht.base i, hclean]
      · rw [Worker.setFrames_base, ht.base i]
        exact (h.ok i).latched

theorem step_inv (hn : 0 < n) {a : Act} (h : Inv n s) (hs : step n s a = some s') : Inv n s' := by
  cases a with
  | clone =>
    simp only [step] at hs
    split_ifs at hs with hpos
    cases hs
    exact ⟨⟨h.books.jobs, h.books.frames⟩, h.ok, fun hsig => absurd (h.handles hsig) (by omega), h.injector⟩
  | dropHandle =>
    simp only [step] at hs
    split_ifs at hs with hpos
    cases hs
    exact ⟨⟨h.books.jobs, h.books.frames⟩, h.ok, fun hsig => absurd (h.handles hsig) (by omega), h.injector⟩
  | signal =>
    simp only [step] at hs
    split_ifs at hs with hsig
    cases hs
    refine ⟨⟨h.books.jobs, h.books.frames⟩, fun k => ?_, fun _ => hsig.1, h.injector⟩
    exact ⟨fun hk => Nat.lt_succ_of_lt ((h.ok k).latched hk), (h.ok k).empty⟩
  | inject =>
    simp only [step] at hs
    split_ifs at hs with hpos
    cases hs
    refine h.inject ⟨0, hn, ?_⟩
    -- with a handle alive no latch is set, so nobody has begun to drain
    by_contra hc
    have hclean := Base.clean_of_away (Bool.eq_true_of_not_eq_false hc)
    have := h.handles (Nat.zero_lt_of_lt ((h.ok 0).latched (Base.draining_of_clean hclean)))
    omega
  | search i set victim =>
    simp only [step] at hs
    split_ifs at hs with hi
    exact searchStep_inv h hi hs
  | move i m =>
    simp only [step] at hs
    split_ifs at hs with hi
    exact moveStep_inv h hi hs

theorem run_inv (hn : 0 < n) {acts : List Act} (h : Inv n s) (hr : run n s acts = some s') : Inv n s' :=
  Machine.run_keeps (fun _ h hs => step_inv hn h hs) h hr

end Steps

/-! ## Where a job is -/

/-- the jobs on the stack of worker `i`, from the top down -/
def St.stack (s : St) (i : ℕ) : List ℕ := (s.worker i).frames.map Frame.job

section Places

variable {n i k j : ℕ} {s : St}

theorem Books.started_nodup (h : Books n s) : s.started.Nodup := by
  have hnodup : (Multiset.range s.submitted).Nodup := Multiset.nodup_range _
  rw [← h.jobs] at hnodup
  exact Multiset.coe_nodup.1 (Multiset.nodup_of_le (Multiset.le_add_left _ _) hnodup)

theorem Books.started_lt (h : Books n s) (hj : j ∈ s.started) : j < s.submitted := by
  rw [← Multiset.mem_range, ← h.jobs]
  exact Multiset.mem_add.2 (.inr (Multiset.mem_coe.2 hj))

theorem Books.queued_of_unstarted (h : Books n s) (hlt : j < s.submitted) (hj : j ∉ s.started) :
    j ∈ s.injector ∨ ∃ i < n, j ∈ (s.worker i).deque := by
  have hmem := Multiset.mem_range.2 hlt
  rw [← h.jobs, queued, Multiset.mem_add, Multiset.mem_add, Multiset.mem_coe, Multiset.mem_coe, Multiset.mem_sum] at hmem
  rcases hmem with (hinj | ⟨i, hi, hd⟩) | hst
  · exact .inl hinj
  · exact .inr ⟨i, Finset.mem_range.1 hi, Multiset.mem_coe.1 hd⟩
  · exact absurd hst hj

theorem mem_onStack : j ∈ onStack n s ↔ ∃ i < n, j ∈ s.stack i := by
  simp only [onStack, Multiset.mem_sum, Finset.mem_range, Multiset.mem_coe]
  rfl

theorem Books.mem_started (h : Books n s) (hi : i < n) (hj : j ∈ s.stack i) : j ∈ s.started := by
  rw [← Multiset.mem_coe, h.frames]
  exact Multiset.mem_add.2 (.inr (mem_onStack.2 ⟨i, hi, hj⟩))

theorem Books.stack_of_started (h : Books n s) (hj : j ∈ s.started) (hf : j ∉ s.finished) : ∃ i < n, j ∈ s.stack i := by
  rw [← Multiset.mem_coe, h.frames, Multiset.mem_add, Multiset.mem_coe] at hj
  exact mem_onStack.1 (hj.resolve_left hf)

theorem Books.places_nodup (h : Books n s) : ((s.finished : Multiset ℕ) + onStack n s).Nodup := by
  rw [← h.frames]
  exact Multiset.coe_nodup.2 h.started_nodup

theorem Books.unfinished (h : Books n s) (hi : i < n) (hj : j ∈ s.stack i) : j ∉ s.finished := by
  intro hf
  exact Multiset.disjoint_left.1 (Multiset.nodup_add.1 h.places_nodup).2.2 (Multiset.mem_coe.2 hf) (mem_onStack.2 ⟨i, hi, hj⟩)

/-- a job is on one stack only -/
theorem Books.stack_unique (h : Books n s) (hi : i < n) (hk : k < n) (hj : j ∈ s.stack i) (hj' : j ∈ s.stack k) : i = k := by
  by_contra hne
  have hnodup := (Multiset.nodup_add.1 h.places_nodup).2.1
  rw [onStack, ← Finset.add_sum_erase _ _ (Finset.mem_range.2 hi)] at hnodup
  refine Multiset.disjoint_left.1 (Multiset.nodup_add.1 hnodup).2.2 (Multiset.mem_coe.2 hj) ?_
  exact Multiset.mem_sum.2 ⟨k, Finset.mem_erase.2 ⟨Ne.symm hne, Finset.mem_range.2 hk⟩, Multiset.mem_coe.2 hj'⟩

end Places
/-! ## Result -/

theorem numThreads_pos (requested : ℕ) : 0 < numThreads requested := by
  have hpos : 0 < threadsMax := by decide
  exact Nat.lt_min.2 ⟨Nat.lt_of_lt_of_le Nat.one_pos (Nat.le_max_right _ _), hpos⟩

/-- **every submitted job runs exactly once**: no job is started twice, and once every worker has stopped all submitted jobs
have been executed and nothing is left in the injector or a deque -/
theorem jobs_exactly_once {requested : ℕ} {acts : List Act} {s : St} (hr : run (numThreads requested) init acts = some s) :
    s.started.Nodup
    ∧ ((∀ i < numThreads requested, (s.worker i).base = .stopped) →
        (∀ j < s.submitted, j ∈ s.started ∧ j ∈ s.finished) ∧ s.injector = []
          ∧ ∀ i < numThreads requested, (s.worker i).deque = []) := by
  have h := run_inv (numThreads_pos requested) (init_inv (numThreads_pos requested)) hr
  refine ⟨h.books.started_nodup, fun hstop => ?_⟩
  have hempty : ∀ i < numThreads requested, (s.worker i).deque = [] ∧ (s.worker i).frames = [] :=
    fun i hi => (h.ok i).empty (by rw [hstop i hi]; rfl)
  have hinj : s.injector = [] := by
    by_contra hne
    obtain ⟨i, hi, hawake⟩ := h.injector hne
    rw [hstop i hi] at hawake
    cases hawake
  have hqueued : queued (numThreads requested) s = 0 := by
    rw [queued, hinj, Finset.sum_eq_zero fun i hi => by rw [(hempty i (Finset.mem_range.1 hi)).1]; rfl]
    rfl
  have hstack : onStack (numThreads requested) s = 0 :=
    Finset.sum_eq_zero fun i hi => by rw [(hempty i (Finset.mem_range.1 hi)).2]; rfl
  have hstarted : (s.started : Multiset ℕ) = Multiset.range s.submitted := by rw [← h.books.jobs, hqueued, zero_add]
  have hfinished : (s.finished : Multiset ℕ) = Multiset.range s.submitted := by
    rw [← hstarted, h.books.frames, hstack, add_zero]
  refine ⟨fun j hj => ?_, hinj, fun i hi => (hempty i hi).1⟩
  rw [← Multiset.mem_coe, ← Multiset.mem_coe, hstarted, hfinished]
  exact ⟨Multiset.mem_range.2 hj, Multiset.mem_range.2 hj⟩

/-- two workers: an injected job submits twice, the second submission spills; one is stolen, the other run in a nested wait -/
def working : List Act :=
  [.inject, .search 0 false none, .search 0 false none, .search 0 false none, .search 0 false none, .search 0 false none,
    .move 0 (.submit false), .move 0 (.submit true), .move 0 .wait,
    .search 1 false none, .search 1 false none, .search 1 false none, .search 1 false none, .search 1 false none,
    .search 0 false none, .search 0 false none, .dropHandle, .signal, .signal]

/-- both workers finish what they hold, drain and leave; worker 1 submits once more from its drain -/
def stopping : List Act :=
  [.move 0 .finish, .search 0 true none, .move 0 .finish, .search 0 false none, .move 1 (.submit false),
    .move 1 .finish, .search 1 false none, .search 1 false none, .move 1 (.submit false), .move 1 .finish,
    .search 1 false none, .move 1 .finish, .search 1 false none, .search 1 false none, .search 1 false none,
    .search 1 false none, .search 1 false none, .search 0 false none, .search 0 false none, .search 0 false none]

/-- the run of `working` and `stopping` stops both workers with five jobs executed -/
theorem jobs_exactly_once_stopping :
    ∃ s, run (numThreads 2) init (working ++ stopping) = some s ∧ s.submitted = 5
      ∧ (∀ j < s.submitted, j ∈ s.started ∧ j ∈ s.finished) ∧ s.injector = [] := by
  have hrun : (run (numThreads 2) init (working ++ stopping)).any (fun s => decide (s.submitted = 5
      ∧ ∀ i < numThreads 2, (s.worker i).base = .stopped)) = true := by decide +kernel
  obtain ⟨s, hs, hp⟩ := (Option.any_eq_true _ _).1 hrun
  obtain ⟨hsub, hstop⟩ := of_decide_eq_true hp
  have h := (jobs_exactly_once hs).2 hstop
  exact ⟨s, hs, hsub, h.1, h.2.1⟩

end YouPipe.Jobs
