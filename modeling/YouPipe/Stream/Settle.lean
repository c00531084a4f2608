/-
Async task panics of a streaming run (`TaskSettleGate`, `CatchTaskPanic::poll`, `record_panic` and the end of
`drain_terminal` in `builder/typed/stream.rs`): a panicking task drops its sender inside the unwind, before its payload is
recorded, so the collector waits for the gate between end of stream and reading the slot.

Tasks and collector are machines over the shared objects: the senders, the slot, the counter of outstanding tasks, and the
gate's mutex and condition variable. A task counts itself in at its first poll. The collector's bounded wait may end at any
time, by a notify, by a timeout or spuriously; past the deadline it gives up. Which tasks send on the terminal channel is
arbitrary, so the stages need no further description. The counter is a natural number (one count per live task);
`underflow` records a decrement of zero.

Result: `panics_surface`, over every reachable state.
-/
import Mathlib.Tactic
import YouPipe.Core.Machine
import YouPipe.Core.Tally
import YouPipe.Core.Word

namespace YouPipe.Settle

open YouPipe.Tally

/-! ## Model -/

/-- a task: before its first poll, between polls, in a poll, unwinding with its sender still held, caught with its payload in
hand, at `task_settled` (recorded, or completed), in the gate's section for the last task, and returned -/
inductive Task (P : Type) where
  | fresh
  | idle
  | polling
  | unwinding (p : P)
  | caught (p : P)
  | settling
  | lock
  | notify
  | unlock
  | ready
deriving DecidableEq, Repr

/-- how a poll of the task's future ends -/
inductive Poll (P : Type) where
  | pending
  | ready
  | panics (p : P)
deriving DecidableEq, Repr

/-- the collector: before end of stream, at the first load of `wait_settled`, at the mutex, at the check under the mutex, at
the wait with the mutex held, parked, about to read the slot with what `wait_settled` returned, and after the read -/
inductive Collector (P : Type) where
  | draining
  | load
  | lock
  | check
  | park
  | waiting
  | read (settled : Bool)
  | done (settled : Bool) (payload : Option P)
deriving DecidableEq, Repr

/-- `notify_all` -/
def Collector.notified {P : Type} : Collector P → Collector P
  | .waiting => .lock
  | c => c

/-- the gate's mutex -/
inductive Lock (K : Type) where
  | free
  | collector
  | task (k : K)
deriving DecidableEq, Repr

/-- the shared objects; `records` lists every recorded payload, `begun` says that some task began to panic and
`begunAtEof` that it did before end of stream -/
structure St (K P : Type) where
  task : K → Task P
  sender : K → Bool
  collector : Collector P
  lock : Lock K
  outstanding : ℕ
  slot : Option P
  underflow : Bool
  records : List P
  begun : Bool
  begunAtEof : Bool

inductive Act (K P : Type) where
  | task (k : K) (o : Poll P)
  | eof
  | collector (timeout : Bool)
  /-- the parked collector wakes without a notify -/
  | wake
deriving DecidableEq, Repr

variable {K P : Type} [DecidableEq K]

def init (K P : Type) : St K P :=
  ⟨fun _ => .fresh, fun _ => true, .draining, .free, 0, none, false, [], false, false⟩

def St.goto (s : St K P) (k : K) (t : Task P) : St K P := { s with task := Function.update s.task k t }

/-- `record_panic`: the first payload stays -/
def recordPanic (slot : Option P) (p : P) : Option P :=
  match slot with
  | none => some p
  | some q => some q

/-- the next step of task `k` -/
def taskStep (s : St K P) (k : K) (o : Poll P) : Option (St K P) :=
  match s.task k with
  | .fresh => some { s.goto k .polling with outstanding := s.outstanding + 1 }
  | .idle => some (s.goto k .polling)
  | .polling =>
    match o with
    | .pending => some (s.goto k .idle)
    | .ready => some { s.goto k .settling with sender := Function.update s.sender k false }
    | .panics p => some { s.goto k (.unwinding p) with begun := true }
  | .unwinding p => some { s.goto k (.caught p) with sender := Function.update s.sender k false }
  | .caught p =>
    some { s.goto k .settling with slot := recordPanic s.slot p, records := s.records ++ [p] }
  | .settling =>
    some { s.goto k (if s.outstanding = 1 then .lock else .ready) with
      outstanding := s.outstanding - 1, underflow := s.underflow || decide (s.outstanding = 0) }
  | .lock => if s.lock = .free then some { s.goto k .notify with lock := .task k } else none
  | .notify => some { s.goto k .unlock with collector := s.collector.notified }
  | .unlock => some { s.goto k .ready with lock := .free }
  | .ready => none

/-- the collector's next step after end of stream -/
def collectorStep (s : St K P) (timeout : Bool) : Option (St K P) :=
  match s.collector with
  | .draining => none
  | .load => some { s with collector := if s.outstanding = 0 then .read true else .lock }
  | .lock => if s.lock = .free then some { s with collector := .check, lock := .collector } else none
  | .check =>
    if s.outstanding = 0 then some { s with collector := .read true, lock := .free }
    else if timeout then some { s with collector := .read false, lock := .free }
    else some { s with collector := .park }
  | .park => some { s with collector := .waiting, lock := .free }
  | .waiting => none
  -- `resume_stored_panic` takes the payload out
  | .read settled => some { s with collector := .done settled s.slot, slot := none }
  | .done _ _ => none

/-- one step; `terminal` marks the tasks whose sender feeds the collector -/
def step [Fintype K] (terminal : K → Bool) (s : St K P) : Act K P → Option (St K P)
  | .task k o => taskStep s k o
  | .eof =>
    match s.collector with
    | .draining =>
      if ∀ k, terminal k = true → s.sender k = false then
        some { s with collector := .load, begunAtEof := s.begun }
      else none
    | _ => none
  | .collector timeout => collectorStep s timeout
  | .wake =>
    match s.collector with
    | .waiting => some { s with collector := .lock }
    | _ => none

def run [Fintype K] (terminal : K → Bool) (s : St K P) (acts : List (Act K P)) : Option (St K P) :=
  acts.foldlM (step terminal) s

/-! ## Invariant -/

/-- counted in and not settled -/
def Task.counted : Task P → Bool
  | .idle | .polling | .unwinding _ | .caught _ | .settling => true
  | _ => false

/-- a payload not yet recorded -/
def Task.carries : Task P → Bool
  | .unwinding _ | .caught _ => true
  | _ => false

/-- inside the gate's section -/
def Task.holds : Task P → Bool
  | .notify | .unlock => true
  | _ => false

/-- about to notify -/
def Task.willNotify : Task P → Bool
  | .lock | .notify => true
  | _ => false

def Collector.holds : Collector P → Bool
  | .check | .park => true
  | _ => false

/-- decided to park -/
def Collector.parks : Collector P → Bool
  | .park | .waiting => true
  | _ => false

/-- before the read the slot holds the first recorded payload; what `wait_settled` returned `true` for was recorded -/
def SlotOk (slot : Option P) (records : List P) (early : Bool) : Collector P → Prop
  | .done true x => early = true → x.isSome = true ∧ x = records.head?
  | .done false _ => True
  | .read true => slot = records.head? ∧ (early = true → records ≠ [])
  | _ => slot = records.head?

/-- the counter counts the tasks counted in and not settled -/
structure Counts [Fintype K] (s : St K P) : Prop where
  total : s.outstanding = ∑ k, (s.task k).counted.toNat
  sound : s.underflow = false

/-- a panic that has begun is recorded or still on its way -/
structure Panics (s : St K P) : Prop where
  begun : s.begun = true → s.records ≠ [] ∨ ∃ k, (s.task k).carries = true
  early : s.begunAtEof = true → s.begun = true
  slot : SlotOk s.slot s.records s.begunAtEof s.collector

/-- the mutex is held by whoever is in its section -/
structure Exclusive (s : St K P) : Prop where
  byTask : ∀ k, s.lock = .task k ↔ (s.task k).holds = true
  byCollector : s.lock = .collector ↔ s.collector.holds = true

/-- a collector that decided to park has somebody to notify it -/
def Watched (s : St K P) : Prop :=
  s.collector.parks = true → 0 < s.outstanding ∨ ∃ k, (s.task k).willNotify = true

section Steps

variable [Fintype K] {s s' : St K P} {k : K} {o : Poll P}

theorem counted_goto (s : St K P) (k : K) (t : Task P) :
    ∑ j, (Function.update s.task k t j).counted.toNat + (s.task k).counted.toNat
      = ∑ j, (s.task j).counted.toNat + t.counted.toNat := by
  have hcomp : (fun j => (Function.update s.task k t j).counted.toNat)
      = Function.update (fun j => (s.task j).counted.toNat) k t.counted.toNat := by
    funext j
    exact Function.apply_update (fun _ x => x.counted.toNat) s.task k t j
  rw [hcomp]
  exact sum_update_add (Finset.mem_univ k) _ _

omit [Fintype K] in
/-- a task with the property keeps it, unless it is the one that steps -/
theorem exists_goto {p : Task P → Bool} {t : Task P} (h : ∃ j, p (s.task j) = true)
    (hk : p (s.task k) = true → p t = true) : ∃ j, p (Function.update s.task k t j) = true := by
  obtain ⟨j, hj⟩ := h
  refine ⟨j, ?_⟩
  rcases eq_or_ne j k with rfl | hne
  · rw [Function.update_self]
    exact hk hj
  · rwa [Function.update_of_ne hne]

theorem Counts.goto {t : Task P} (h : Counts s) (htask : s'.task = Function.update s.task k t)
    (hout : s'.outstanding + (s.task k).counted.toNat = s.outstanding + t.counted.toNat) (hu : s'.underflow = false) :
    Counts s' where
  total := by
    have hgoto := counted_goto s k t
    rw [← h.total] at hgoto
    rw [htask]
    omega
  sound := hu

omit [DecidableEq K] in
/-- a task about to settle is counted -/
theorem Counts.pos (h : Counts s) (hk : (s.task k).counted = true) : 0 < s.outstanding := by
  have hle := Finset.single_le_sum (f := fun j => (s.task j).counted.toNat) (fun _ _ => Nat.zero_le _) (Finset.mem_univ k)
  rw [← h.total, hk] at hle
  exact hle

omit [DecidableEq K] in
/-- nobody is counted when the counter is zero -/
theorem Counts.none_counted (h : Counts s) (h0 : s.outstanding = 0) (k : K) : (s.task k).counted = false := by
  by_contra hne
  have := h.pos (Bool.eq_true_of_not_eq_false hne)
  omega

theorem taskStep_counts (h : Counts s) (hs : taskStep s k o = some s') : Counts s' := by
  unfold taskStep at hs
  split at hs
  case h_1 hk => cases hs; exact h.goto (k := k) rfl (by simp [hk, Task.counted]) h.sound
  case h_2 hk => cases hs; exact h.goto (k := k) rfl (by simp [hk, Task.counted, St.goto]) h.sound
  case h_3 hk =>
    split at hs
    all_goals cases hs; exact h.goto (k := k) rfl (by simp [hk, Task.counted, St.goto]) h.sound
  case h_4 p hk | h_5 p hk => cases hs; exact h.goto (k := k) rfl (by simp [hk, Task.counted, St.goto]) h.sound
  case h_6 hk =>
    have hpos := h.pos (k := k) (by rw [hk]; rfl)
    cases hs
    refine h.goto (k := k) rfl ?_ ?_
    · have hout : (if s.outstanding = 1 then Task.lock else .ready : Task P).counted = false := by split_ifs <;> rfl
      rw [hk, hout]
      exact Nat.sub_add_cancel hpos
    · simp [h.sound, Nat.pos_iff_ne_zero.1 hpos]
  case h_7 hk =>
    split_ifs at hs
    cases hs
    exact h.goto (k := k) rfl (by simp [hk, Task.counted, St.goto]) h.sound
  case h_8 hk | h_9 hk => cases hs; exact h.goto (k := k) rfl (by simp [hk, Task.counted, St.goto]) h.sound
  case h_10 => cases hs

omit [DecidableEq K] [Fintype K] in
theorem head?_record {slot : Option P} {records : List P} (p : P) (h : slot = records.head?) :
    recordPanic slot p = (records ++ [p]).head? := by
  subst h
  cases records <;> rfl

/-- recording keeps the first payload in front -/
theorem SlotOk.record {slot : Option P} {records : List P} {early : Bool} {c : Collector P} (p : P)
    (h : SlotOk slot records early c) : SlotOk (recordPanic slot p) (records ++ [p]) early c := by
  cases c with
  | done settled x =>
    cases settled with
    | false => trivial
    | true =>
      intro hb
      obtain ⟨hx, hhead⟩ := h hb
      obtain ⟨q, rfl⟩ := Option.isSome_iff_exists.1 hx
      exact ⟨rfl, by rw [List.head?_append, ← hhead]; rfl⟩
  | read settled =>
    cases settled with
    | true => exact ⟨head?_record p h.1, fun _ => by simp⟩
    | false => exact head?_record p h
  | draining | load | lock | check | park | waiting => exact head?_record p h

theorem SlotOk.notified {slot : Option P} {records : List P} {early : Bool} {c : Collector P}
    (h : SlotOk slot records early c) : SlotOk slot records early c.notified := by
  cases c <;> exact h

omit [Fintype K] in
theorem taskStep_panics (h : Panics s) (hs : taskStep s k o = some s') : Panics s' := by
  have hkeep : ∀ t : Task P, ((s.task k).carries = true → t.carries = true) → s.begun = true →
      s.records ≠ [] ∨ ∃ j, (Function.update s.task k t j).carries = true :=
    fun t ht hb => (h.begun hb).imp id fun he => exists_goto he ht
  unfold taskStep at hs
  split at hs
  case h_1 hk | h_2 hk => cases hs; exact ⟨hkeep _ (by simp [hk, Task.carries]), h.early, h.slot⟩
  case h_3 hk =>
    split at hs
    case h_3 p =>
      cases hs
      exact ⟨fun _ => Or.inr ⟨k, by simp [St.goto, Task.carries]⟩, fun _ => rfl, h.slot⟩
    all_goals cases hs; exact ⟨hkeep _ (by simp [hk, Task.carries]), h.early, h.slot⟩
  case h_4 p hk => cases hs; exact ⟨hkeep _ (fun _ => rfl), h.early, h.slot⟩
  case h_5 p hk => cases hs; exact ⟨fun _ => Or.inl (by simp), h.early, h.slot.record p⟩
  case h_6 hk => cases hs; exact ⟨hkeep _ (by simp [hk, Task.carries]), h.early, h.slot⟩
  case h_7 hk =>
    split_ifs at hs
    cases hs
    exact ⟨hkeep _ (by simp [hk, Task.carries]), h.early, h.slot⟩
  case h_8 hk => cases hs; exact ⟨hkeep _ (by simp [hk, Task.carries]), h.early, h.slot.notified⟩
  case h_9 hk => cases hs; exact ⟨hkeep _ (by simp [hk, Task.carries]), h.early, h.slot⟩
  case h_10 => cases hs

omit [Fintype K] in
/-- a task that stays outside the section, or stays in it -/
theorem Exclusive.goto {t : Task P} (h : Exclusive s) (ht : t.holds = (s.task k).holds) (j : K) :
    s.lock = .task j ↔ (Function.update s.task k t j).holds = true := by
  rcases eq_or_ne j k with rfl | hne
  · rw [Function.update_self, ht]
    exact h.byTask j
  · rw [Function.update_of_ne hne]
    exact h.byTask j

omit [Fintype K] in
theorem taskStep_exclusive (h : Exclusive s) (hs : taskStep s k o = some s') : Exclusive s' := by
  unfold taskStep at hs
  split at hs
  case h_1 hk | h_2 hk => cases hs; exact ⟨h.goto (by rw [hk]; rfl), h.byCollector⟩
  case h_3 hk => split at hs <;> cases hs <;> exact ⟨h.goto (by rw [hk]; rfl), h.byCollector⟩
  case h_4 p hk | h_5 p hk => cases hs; exact ⟨h.goto (by rw [hk]; rfl), h.byCollector⟩
  case h_6 hk => cases hs; exact ⟨h.goto (by rw [hk]; split_ifs <;> rfl), h.byCollector⟩
  case h_7 hk =>
    split_ifs at hs with hfree
    cases hs
    constructor
    · intro j
      rcases eq_or_ne j k with rfl | hne
      · simp [St.goto, Task.holds]
      · have := h.byTask j
        simp_all [St.goto, Ne.symm hne]
    · have := h.byCollector
      simp_all [St.goto]
  case h_8 hk =>
    cases hs
    refine ⟨h.goto (by rw [hk]; rfl), ?_⟩
    have := h.byCollector
    show s.lock = .collector ↔ _
    cases hc : s.collector <;> simp_all [Collector.notified, Collector.holds]
  case h_9 hk =>
    have hlock : s.lock = .task k := (h.byTask k).2 (by rw [hk]; rfl)
    cases hs
    constructor
    · intro j
      rcases eq_or_ne j k with rfl | hne
      · simp [St.goto, Task.holds]
      · have := h.byTask j
        simp_all [St.goto, Ne.symm hne]
    · have := h.byCollector
      simp_all [St.goto]
  case h_10 => cases hs

omit [DecidableEq K] [Fintype K] in
/-- the collector does not hold the mutex while a task is in its section -/
theorem Exclusive.not_both (h : Exclusive s) (hk : (s.task k).holds = true) : s.collector.holds = false := by
  have hlock := (h.byTask k).2 hk
  by_contra hc
  have := h.byCollector.2 (Bool.eq_true_of_not_eq_false hc)
  rw [hlock] at this
  cases this

/-- the decrement to zero leaves its task on the way to notify, and a notify finds no collector about to park -/
theorem taskStep_watched (hc : Counts s) (hx : Exclusive s) (h : Watched s) (hs : taskStep s k o = some s') :
    Watched s' := by
  have hkeep : ∀ t : Task P, ((s.task k).willNotify = true → t.willNotify = true) → s.collector.parks = true →
      0 < s.outstanding ∨ ∃ j, (Function.update s.task k t j).willNotify = true :=
    fun t ht hp => (h hp).imp id fun he => exists_goto he ht
  unfold taskStep at hs
  split at hs
  case h_1 hk => cases hs; exact fun _ => Or.inl (Nat.succ_pos _)
  case h_2 hk => cases hs; exact hkeep _ (by simp [hk, Task.willNotify])
  case h_3 hk => split at hs <;> cases hs <;> exact hkeep _ (by simp [hk, Task.willNotify])
  case h_4 p hk | h_5 p hk => cases hs; exact hkeep _ (by simp [hk, Task.willNotify])
  case h_6 hk =>
    have hpos := hc.pos (k := k) (by rw [hk]; rfl)
    cases hs
    intro hp
    by_cases h1 : s.outstanding = 1
    · exact Or.inr ⟨k, by simp [St.goto, h1, Task.willNotify]⟩
    · exact Or.inl (show 0 < s.outstanding - 1 by omega)
  case h_7 hk =>
    split_ifs at hs
    cases hs
    exact hkeep _ (fun _ => rfl)
  case h_8 hk =>
    have hfree := hx.not_both (k := k) (by rw [hk]; rfl)
    cases hs
    intro hp
    cases hcol : s.collector <;> simp_all [Collector.notified, Collector.parks, Collector.holds]
  case h_9 hk => cases hs; exact hkeep _ (by simp [hk, Task.willNotify])
  case h_10 => cases hs

/-! ## Collector steps -/

omit [DecidableEq K] in
/-- seeing zero means that every panic of the past is recorded -/
theorem Panics.settled (hc : Counts s) (h : Panics s) (h0 : s.outstanding = 0) (hslot : s.slot = s.records.head?) :
    SlotOk s.slot s.records s.begunAtEof (.read true) := by
  refine ⟨hslot, fun hb => ?_⟩
  rcases h.begun (h.early hb) with hrec | ⟨k, hk⟩
  · exact hrec
  · have hcount := hc.none_counted h0 k
    cases ht : s.task k <;> simp_all [Task.carries, Task.counted]

theorem collectorStep_panics (hc : Counts s) (h : Panics s) {timeout : Bool} (hs : collectorStep s timeout = some s') :
    Panics s' := by
  have hslot := h.slot
  unfold collectorStep at hs
  split at hs
  case h_1 | h_6 | h_8 => cases hs
  case h_2 hcol =>
    rw [hcol] at hslot
    cases hs
    refine ⟨h.begun, h.early, ?_⟩
    show SlotOk s.slot s.records s.begunAtEof (if s.outstanding = 0 then .read true else .lock)
    split_ifs with h0
    · exact h.settled hc h0 hslot
    · exact hslot
  case h_3 hcol =>
    rw [hcol] at hslot
    split_ifs at hs
    cases hs
    exact ⟨h.begun, h.early, hslot⟩
  case h_4 hcol =>
    rw [hcol] at hslot
    have hread := fun h0 => h.settled hc h0 hslot
    split_ifs at hs with h0 ht
    all_goals cases hs
    · exact ⟨h.begun, h.early, hread h0⟩
    · exact ⟨h.begun, h.early, hslot⟩
    · exact ⟨h.begun, h.early, hslot⟩
  case h_5 hcol =>
    rw [hcol] at hslot
    cases hs
    exact ⟨h.begun, h.early, hslot⟩
  case h_7 settled hcol =>
    rw [hcol] at hslot
    cases hs
    refine ⟨h.begun, h.early, ?_⟩
    cases settled with
    | false => trivial
    | true =>
      intro hb
      have hne := hslot.2 hb
      exact ⟨by rw [hslot.1]; cases hr : s.records <;> simp_all, hslot.1⟩

omit [Fintype K] in
theorem collectorStep_exclusive (h : Exclusive s) {timeout : Bool} (hs : collectorStep s timeout = some s') :
    Exclusive s' := by
  have hcoll := h.byCollector
  have hown : ∀ (lock : Lock K), s.collector.holds = true → (lock = .free ∨ lock = .collector) →
      ∀ k, lock = .task k ↔ (s.task k).holds = true := by
    intro lock hholds hlock k
    have hk := h.byTask k
    rw [hcoll.2 hholds] at hk
    rcases hlock with rfl | rfl <;> simpa using hk
  unfold collectorStep at hs
  split at hs
  case h_1 | h_6 | h_8 => cases hs
  case h_2 hcol =>
    cases hs
    refine ⟨h.byTask, ?_⟩
    rw [hcol] at hcoll
    show s.lock = .collector ↔ (if s.outstanding = 0 then .read true else .lock : Collector P).holds = true
    split_ifs <;> exact hcoll
  case h_3 hcol =>
    split_ifs at hs with hfree
    cases hs
    refine ⟨fun k => ?_, by simp [Collector.holds]⟩
    have hk := h.byTask k
    rw [hfree] at hk
    simpa using hk
  case h_4 hcol =>
    have hholds : s.collector.holds = true := by rw [hcol]; rfl
    split_ifs at hs
    all_goals cases hs
    · exact ⟨hown _ hholds (Or.inl rfl), by simp [Collector.holds]⟩
    · exact ⟨hown _ hholds (Or.inl rfl), by simp [Collector.holds]⟩
    · exact ⟨h.byTask, by simpa [Collector.holds, hcol] using hcoll⟩
  case h_5 hcol =>
    have hholds : s.collector.holds = true := by rw [hcol]; rfl
    cases hs
    exact ⟨hown _ hholds (Or.inl rfl), by simp [Collector.holds]⟩
  case h_7 settled hcol =>
    cases hs
    exact ⟨h.byTask, by simpa [Collector.holds, hcol] using hcoll⟩

omit [Fintype K] in
theorem collectorStep_watched (h : Watched s) {timeout : Bool} (hs : collectorStep s timeout = some s') : Watched s' := by
  unfold collectorStep at hs
  split at hs
  case h_1 | h_6 | h_8 => cases hs
  case h_2 hcol =>
    cases hs
    intro hp
    have : (if s.outstanding = 0 then .read true else .lock : Collector P).parks = false := by split_ifs <;> rfl
    rw [show _ = _ from hp] at this
    cases this
  case h_3 hcol =>
    split_ifs at hs
    cases hs
    exact fun hp => Bool.noConfusion hp
  case h_4 hcol =>
    split_ifs at hs with h0 ht
    all_goals cases hs
    · exact fun hp => Bool.noConfusion hp
    · exact fun hp => Bool.noConfusion hp
    · exact fun _ => Or.inl (Nat.pos_of_ne_zero h0)
  case h_5 hcol =>
    cases hs
    exact fun _ => h (by rw [hcol]; rfl)
  case h_7 settled hcol =>
    cases hs
    exact fun hp => Bool.noConfusion hp

theorem collectorStep_counts (h : Counts s) {timeout : Bool} (hs : collectorStep s timeout = some s') : Counts s' := by
  unfold collectorStep at hs
  split at hs
  case h_1 | h_6 | h_8 => cases hs
  case h_3 | h_4 =>
    split_ifs at hs
    all_goals cases hs; exact ⟨h.total, h.sound⟩
  all_goals cases hs; exact ⟨h.total, h.sound⟩

/-! ## Runs -/

structure Inv (s : St K P) : Prop where
  counts : Counts s
  panics : Panics s
  exclusive : Exclusive s
  watched : Watched s

omit [DecidableEq K] in
theorem init_inv : Inv (init K P) where
  counts := ⟨by simp [init, Task.counted], rfl⟩
  panics := ⟨fun h => Bool.noConfusion h, fun h => Bool.noConfusion h, rfl⟩
  exclusive := ⟨fun k => by simp [init, Task.holds], by simp [init, Collector.holds]⟩
  watched := fun h => Bool.noConfusion h

theorem step_inv {terminal : K → Bool} {a : Act K P} (h : Inv s) (hs : step terminal s a = some s') : Inv s' := by
  cases a with
  | task k o =>
    exact ⟨taskStep_counts h.counts hs, taskStep_panics h.panics hs, taskStep_exclusive h.exclusive hs,
      taskStep_watched h.counts h.exclusive h.watched hs⟩
  | collector timeout =>
    exact ⟨collectorStep_counts h.counts hs, collectorStep_panics h.counts h.panics hs,
      collectorStep_exclusive h.exclusive hs, collectorStep_watched h.watched hs⟩
  | eof =>
    simp only [step] at hs
    split at hs
    · next hcol =>
      split_ifs at hs
      cases hs
      have hslot := h.panics.slot
      rw [hcol] at hslot
      refine ⟨⟨h.counts.total, h.counts.sound⟩, ⟨h.panics.begun, id, hslot⟩, ⟨h.exclusive.byTask, ?_⟩,
        fun hp => Bool.noConfusion hp⟩
      simpa [hcol, Collector.holds] using h.exclusive.byCollector
    · cases hs
  | wake =>
    simp only [step] at hs
    split at hs
    · next hcol =>
      cases hs
      have hslot := h.panics.slot
      rw [hcol] at hslot
      refine ⟨⟨h.counts.total, h.counts.sound⟩, ⟨h.panics.begun, h.panics.early, hslot⟩, ⟨h.exclusive.byTask, ?_⟩,
        fun hp => Bool.noConfusion hp⟩
      simpa [hcol, Collector.holds] using h.exclusive.byCollector
    · cases hs

theorem run_inv {terminal : K → Bool} {acts : List (Act K P)} (h : Inv s) (hr : run terminal s acts = some s') :
    Inv s' :=
  Machine.run_keeps (fun _ h hs => step_inv h hs) h hr

end Steps

/-- in the gate's section -/
def Task.inGate : Task P → Bool
  | .settling | .lock | .notify | .unlock => true
  | _ => false

/-- **no async panic is swallowed**: when `wait_settled` returned `true` and a task had begun to panic before end of stream,
the read finds the payload recorded first; the counter is never taken below zero; and with the counter at zero and no task in
the gate the collector is not parked -/
theorem panics_surface [Fintype K] {terminal : K → Bool} {acts : List (Act K P)} {s : St K P}
    (hr : run terminal (init K P) acts = some s) :
    (∀ x, s.collector = .done true x → s.begunAtEof = true → x.isSome = true ∧ x = s.records.head?)
    ∧ (s.collector = .read true → s.begunAtEof = true → s.slot.isSome = true ∧ s.slot = s.records.head?)
    ∧ s.underflow = false
    ∧ ¬ (s.outstanding = 0 ∧ (∀ k, (s.task k).inGate = false) ∧ s.collector = .waiting) := by
  have h := run_inv init_inv hr
  have hslot := h.panics.slot
  refine ⟨?_, ?_, h.counts.sound, ?_⟩
  · intro x hx hb
    rw [hx] at hslot
    exact hslot hb
  · intro hread hb
    rw [hread] at hslot
    have hne := hslot.2 hb
    exact ⟨by rw [hslot.1]; cases hrec : s.records <;> simp_all, hslot.1⟩
  · rintro ⟨h0, hgate, hwait⟩
    rcases h.watched (by rw [hwait]; rfl) with hpos | ⟨k, hk⟩
    · omega
    · have := hgate k
      cases ht : s.task k <;> simp_all [Task.inGate, Task.willNotify]

/-- two stages of one task each: the upstream task panics, the terminal one completes and closes the channel while the payload
is still unrecorded; the collector parks and is notified by the last task -/
def swallow : List (Act (Fin 2) ℕ) :=
  [.task 0 .pending, .task 1 .pending, .task 0 (.panics 7), .task 0 .pending, .task 1 .ready, .eof, .task 1 .pending,
    .collector false, .collector false, .collector false, .collector false, .task 0 .pending, .task 0 .pending,
    .task 0 .pending, .task 0 .pending, .task 0 .pending, .collector false, .collector false, .collector false]

/-- the run of `swallow` reads the payload -/
theorem panics_surface_swallow :
    ∃ s, run (fun k => decide (k = 1)) (init (Fin 2) ℕ) swallow = some s ∧ s.collector = .done true (some 7)
      ∧ s.begunAtEof = true ∧ (some 7 : Option ℕ).isSome = true ∧ some 7 = s.records.head? := by
  obtain ⟨s, hs, hcol, hb⟩ : ∃ s, run (fun k => decide (k = 1)) (init (Fin 2) ℕ) swallow = some s
      ∧ s.collector = .done true (some 7) ∧ s.begunAtEof = true := ⟨_, rfl, rfl, rfl⟩
  exact ⟨s, hs, hcol, hb, (panics_surface hs).1 _ hcol hb⟩

end YouPipe.Settle
