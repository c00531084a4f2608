/-
The three records of who sleeps agree: the counter word, the `is_blocked` flags and the sleep mask (`pool/sleep.rs`,
`pool/sleep_mask.rs`).

A worker counts as sleeping from its commit exchange until it retracts or a waker has taken its unit (`Worker.counted`). The
worker's own record, with the place of whoever holds its mutex, fixes what its mask bit must be (`Worker.marked`).

`step_change` says once what a step can do to these records; `Inv` follows from it, and `sleep_state` states the result.
-/
import Mathlib.Tactic
import YouPipe.Core.Machine
import YouPipe.Core.Tally
import YouPipe.Pool.Sleep

namespace YouPipe.Pool

open YouPipe.Word YouPipe.Tally

/-! ## What a worker's record says -/

/-- the worker holds its own mutex -/
def Pc.inSection : Pc → Bool
  | .fallAsleep | .maskSet | .load | .commit _ | .finalCheck | .retract | .maskClear | .setBlocked | .waitLoop | .wakeUp
  | .wakeUpCas | .unlock => true
  | _ => false

/-- past the worker's own update of its flag, up to its return from `condvar.wait` -/
def Pc.parked : Pc → Bool
  | .waitLoop | .waiting | .relock => true
  | _ => false

/-- past the commit exchange -/
def Pc.committed : Pc → Bool
  | .finalCheck | .retract | .setBlocked | .waitLoop | .waiting | .relock => true
  | _ => false

/-- between `mask.set` and `mask.clear` of the worker itself -/
def Pc.masked : Pc → Bool
  | .load | .commit _ | .finalCheck | .retract | .maskClear | .setBlocked => true
  | _ => false

namespace Worker

/-- in an idle loop -/
def idle (w : Worker) : Bool :=
  match w.pc with
  | .active => false
  | _ => true

/-- a waker has cleared the flag and not yet taken the sleeping unit -/
def claiming (w : Worker) : Bool :=
  match w.lock with
  | .waker _ .maskClear => true
  | .waker _ .subSleeping => true
  | _ => false

/-- a waker has taken the worker: its flag is cleared and its unit is off the counter -/
def claimed (w : Worker) : Bool := w.pc.parked && !w.blocked && !w.claiming

/-- parked, or between the commit exchange and the park, and not claimed by a waker -/
def counted (w : Worker) : Bool := w.pc.committed && !w.claimed

/-- what the mask bit must be -/
def marked (w : Worker) : Bool :=
  match w.lock with
  | .waker _ .maskClear => true
  | .waker _ .subSleeping => false
  | _ => w.blocked || w.pc.masked

end Worker

/-- who may hold the mutex, and when the flag may be set -/
structure WorkerOk (w : Worker) : Prop where
  self : w.lock = .self ↔ w.pc.inSection = true
  blocked : w.blocked = true → w.pc.parked = true
  taken : ∀ t sec, w.lock = .waker t sec → sec ≠ .check → w.blocked = false
  claiming : w.claiming = true → w.pc = .waiting ∨ w.pc = .relock

namespace WorkerOk

variable {w : Worker}

theorem blocked_eq_false (h : WorkerOk w) (hp : w.pc.parked = false) : w.blocked = false := by
  by_contra hb
  rw [h.blocked (Bool.not_eq_false _ ▸ hb)] at hp
  exact absurd hp (by decide)

/-- a worker that holds its own mutex with the flag clear -/
theorem of_section (hl : w.lock = .self) (hs : w.pc.inSection = true) (hb : w.blocked = false) : WorkerOk w := by
  refine ⟨by simp [hl, hs], by simp [hb], by simp [hl], ?_⟩
  simp [Worker.claiming, hl]

/-- a counted worker is in its idle loop -/
theorem idle_of_counted (_h : WorkerOk w) (hc : w.counted = true) : w.idle = true := by
  cases hpc : w.pc <;> simp_all [Worker.counted, Worker.idle, Pc.committed]

end WorkerOk

/-! ## What a step can do -/

/-- a word operation beside a worker's change from `w` to `w'` -/
inductive WordChange (x x' : ℕ) (w w' : Worker) : Prop
  | same (hx : x' = x) (hi : w'.idle = w.idle) (hc : w'.counted = w.counted)
  | jec (hx : x' = wrappingAdd x oneJec) (hi : w'.idle = w.idle) (hc : w'.counted = w.counted)
  | addSleeping (hx : x' = wrappingAdd x oneSleeping) (hi : w'.idle = w.idle) (hc : w.counted = false)
      (hc' : w'.counted = true)
  | subSleeping (hx : x' = wrappingSub x oneSleeping) (hi : w'.idle = w.idle) (hc : w.counted = true)
      (hc' : w'.counted = false)
  | addInactive (hx : x' = wrappingAdd x oneInactive) (hc : w'.counted = w.counted) (hi : w.idle = false)
      (hi' : w'.idle = true)
  | subInactive (hx : x' = wrappingSub x oneInactive) (hc : w'.counted = w.counted) (hi : w.idle = true)
      (hi' : w'.idle = false)

/-- a step changes nothing of the three records, bumps the jobs event counter, or changes one worker -/
inductive Change (n : ℕ) (s s' : St) : Prop
  | quiet (hword : s'.word = s.word) (hmask : s'.mask = s.mask) (hworker : s'.worker = s.worker)
  | jec (hword : s'.word = wrappingAdd s.word oneJec) (hmask : s'.mask = s.mask) (hworker : s'.worker = s.worker)
  | worker (i : ℕ) (w : Worker) (hi : i < n) (hworker : s'.worker = Function.update s.worker i w) (hok : WorkerOk w)
      (hbit : s'.mask.bit i = w.marked) (hbits : ∀ j, j ≠ i → s'.mask.bit j = s.mask.bit j)
      (hword : WordChange s.word s'.word (s.worker i) w)

structure Inv (n : ℕ) (s : St) : Prop where
  ok : ∀ i, WorkerOk (s.worker i)
  bit : ∀ i, s.mask.bit i = (s.worker i).marked
  word : ∃ jec < jecRange, s.word = pack jec (tally n Worker.idle s.worker) (tally n Worker.counted s.worker)

theorem Inv.counted_le_idle {n : ℕ} {s : St} (h : Inv n s) :
    tally n Worker.counted s.worker ≤ tally n Worker.idle s.worker :=
  tally_mono fun i hc => (h.ok i).idle_of_counted hc

theorem jec_lt (jec : ℕ) : (jec + 1) % jecRange < jecRange := Nat.mod_lt _ (by decide)

/-- a changed worker's word operation moves the tallies the same way -/
theorem WordChange.pack {n i : ℕ} (hn : n ≤ threadsMax) (hi : i < n) {f : ℕ → Worker} {w : Worker} {jec x' : ℕ}
    (hjec : jec < jecRange)
    (h : WordChange (pack jec (tally n Worker.idle f) (tally n Worker.counted f)) x' (f i) w) :
    ∃ jec' < jecRange,
      x' = Pool.pack jec' (tally n Worker.idle (Function.update f i w)) (tally n Worker.counted (Function.update f i w)) ∧
      (x' = Pool.pack jec (tally n Worker.idle f) (tally n Worker.counted f) ∨
        Neighbours jec (tally n Worker.idle f) (tally n Worker.counted f) jec'
          (tally n Worker.idle (Function.update f i w)) (tally n Worker.counted (Function.update f i w))) := by
  have hidle := tally_update hi Worker.idle f w
  have hcount := tally_update hi Worker.counted f w
  have ha := (tally_le n Worker.idle f).trans hn
  have hb := (tally_le n Worker.counted f).trans hn
  have ha' := (tally_le n Worker.idle (Function.update f i w)).trans hn
  have hb' := (tally_le n Worker.counted (Function.update f i w)).trans hn
  generalize tally n Worker.idle f = a at *
  generalize tally n Worker.counted f = b at *
  generalize tally n Worker.idle (Function.update f i w) = a' at *
  generalize tally n Worker.counted (Function.update f i w) = b' at *
  cases h with
  | same hx h1 h2 =>
    rw [h1] at hidle
    rw [h2] at hcount
    obtain rfl : a' = a := by omega
    obtain rfl : b' = b := by omega
    exact ⟨jec, hjec, hx, .inl hx⟩
  | jec hx h1 h2 =>
    rw [h1] at hidle
    rw [h2] at hcount
    obtain rfl : a' = a := by omega
    obtain rfl : b' = b := by omega
    rw [pack_add_jec ha hb] at hx
    exact ⟨_, jec_lt jec, hx, .inr (.inr (.inr (.inr (.inr ⟨rfl, rfl, rfl⟩))))⟩
  | addSleeping hx h1 h2 h3 =>
    rw [h1] at hidle
    rw [h2, h3] at hcount
    obtain rfl : a' = a := by omega
    obtain rfl : b' = b + 1 := by simpa using hcount
    rw [pack_add_sleeping hjec ha hb'] at hx
    exact ⟨jec, hjec, hx, .inr (.inl ⟨rfl, rfl, rfl⟩)⟩
  | subSleeping hx h1 h2 h3 =>
    rw [h1] at hidle
    rw [h2, h3] at hcount
    obtain rfl : a' = a := by omega
    obtain rfl : b = b' + 1 := by simpa using hcount.symm
    rw [pack_sub_sleeping hjec ha hb] at hx
    exact ⟨jec, hjec, hx, .inr (.inr (.inl ⟨rfl, rfl, rfl⟩))⟩
  | addInactive hx h1 h2 h3 =>
    rw [h1] at hcount
    rw [h2, h3] at hidle
    obtain rfl : b' = b := by omega
    obtain rfl : a' = a + 1 := by simpa using hidle
    rw [pack_add_inactive hjec ha' hb] at hx
    exact ⟨jec, hjec, hx, .inr (.inr (.inr (.inl ⟨rfl, rfl, rfl⟩)))⟩
  | subInactive hx h1 h2 h3 =>
    rw [h1] at hcount
    rw [h2, h3] at hidle
    obtain rfl : b' = b := by omega
    obtain rfl : a = a' + 1 := by simpa using hidle.symm
    rw [pack_sub_inactive hjec ha hb] at hx
    exact ⟨jec, hjec, hx, .inr (.inr (.inr (.inr (.inl ⟨rfl, rfl, rfl⟩))))⟩

theorem Change.inv {n : ℕ} {s s' : St} (hn : n ≤ threadsMax) (h : Inv n s) (hc : Change n s s') :
    Inv n s' ∧ OneField s.word s'.word := by
  obtain ⟨jec, hjec, hword⟩ := h.word
  have hidle : ∀ f : ℕ → Worker, tally n Worker.idle f ≤ threadsMax := fun f => (tally_le n _ f).trans hn
  have hcount : ∀ f : ℕ → Worker, tally n Worker.counted f ≤ threadsMax := fun f => (tally_le n _ f).trans hn
  cases hc with
  | quiet hw hm hwk =>
    refine ⟨⟨?_, ?_, ?_⟩, .inl hw⟩
    · rw [hwk]
      exact h.ok
    · rw [hwk, hm]
      exact h.bit
    · rw [hwk, hw]
      exact h.word
  | jec hw hm hwk =>
    rw [hword, pack_add_jec (hidle _) (hcount _)] at hw
    refine ⟨⟨?_, ?_, ?_⟩, ?_⟩
    · rw [hwk]
      exact h.ok
    · rw [hwk, hm]
      exact h.bit
    · rw [hwk]
      exact ⟨_, jec_lt jec, hw⟩
    · rw [hw, hword]
      exact OneField.pack (hidle _) (hcount _) (hidle _) (hcount _) (.inr (.inr (.inr (.inr ⟨rfl, rfl, rfl⟩))))
  | worker i w hi hwk hok hbit hbits hwc =>
    rw [hword] at hwc
    obtain ⟨jec', hjec', hpack, hnext⟩ := hwc.pack hn hi hjec
    refine ⟨⟨fun j => ?_, fun j => ?_, ?_⟩, ?_⟩
    · rw [hwk]
      by_cases hj : j = i
      · rw [hj, Function.update_self]
        exact hok
      · rw [Function.update_of_ne hj]
        exact h.ok j
    · rw [hwk]
      by_cases hj : j = i
      · rw [hj, Function.update_self]
        exact hbit
      · rw [Function.update_of_ne hj, hbits j hj]
        exact h.bit j
    · rw [hwk]
      exact ⟨jec', hjec', hpack⟩
    · rcases hnext with hsame | hnext
      · rw [hword]
        exact .inl hsame
      · rw [hword, hpack]
        exact OneField.pack (hidle _) (hcount _) (hidle _) (hcount _) hnext

/-! ## The idle loop -/

/-- neither in the worker's own critical section nor parked -/
def Pc.outside (pc : Pc) : Bool := !pc.inSection && !pc.parked

theorem Pc.committed_of_outside {pc : Pc} (h : pc.outside = true) : pc.committed = false := by
  cases pc <;> simp_all [Pc.outside, Pc.inSection, Pc.parked, Pc.committed]

theorem Pc.masked_of_outside {pc : Pc} (h : pc.outside = true) : pc.masked = false := by
  cases pc <;> simp_all [Pc.outside, Pc.inSection, Pc.parked, Pc.masked]

theorem Pc.inSection_of_outside {pc : Pc} (h : pc.outside = true) : pc.inSection = false := by
  simp only [Pc.outside, Bool.and_eq_true, Bool.not_eq_true'] at h
  exact h.1

theorem Pc.parked_of_outside {pc : Pc} (h : pc.outside = true) : pc.parked = false := by
  simp only [Pc.outside, Bool.and_eq_true, Bool.not_eq_true'] at h
  exact h.2

/-- moving outside critical sections and parks keeps the records -/
theorem WorkerOk.move {w : Worker} (h : WorkerOk w) (w' : Worker) (ho : w.pc.outside = true) (ho' : w'.pc.outside = true)
    (hl : w'.lock = w.lock) (hb : w'.blocked = w.blocked) :
    WorkerOk w' ∧ w'.marked = w.marked ∧ w'.counted = w.counted := by
  have hblocked := h.blocked_eq_false (Pc.parked_of_outside ho)
  have hclaiming : w'.claiming = w.claiming := by simp only [Worker.claiming, hl]
  refine ⟨⟨?_, ?_, ?_, ?_⟩, ?_, ?_⟩
  · rw [hl, h.self, Pc.inSection_of_outside ho, Pc.inSection_of_outside ho']
  · intro hb'
    rw [hb, hblocked] at hb'
    exact absurd hb' Bool.false_ne_true
  · intro t sec hlock _
    rw [hb]
    exact hblocked
  · intro hc
    rw [hclaiming] at hc
    rcases h.claiming hc with hpc | hpc
    · rw [hpc] at ho
      exact absurd ho (by decide)
    · rw [hpc] at ho
      exact absurd ho (by decide)
  · simp only [Worker.marked, hl, hb, Pc.masked_of_outside ho, Pc.masked_of_outside ho']
  · simp only [Worker.counted, Pc.committed_of_outside ho, Pc.committed_of_outside ho', Bool.false_and]

theorem Worker.idle_of_ne {w : Worker} (h : w.pc ≠ .active) : w.idle = true := by
  cases hpc : w.pc <;> simp_all [Worker.idle]

theorem Worker.counted_of_not_parked {w : Worker} (h : w.pc.parked = false) : w.counted = w.pc.committed := by
  simp [Worker.counted, Worker.claimed, h]

theorem Worker.marked_of_self {w : Worker} (h : w.lock = .self) : w.marked = (w.blocked || w.pc.masked) := by
  simp [Worker.marked, h]

section Steps

variable {n i : ℕ} {s s' : St} (w : Worker)

/-- one worker changes, the mask does not -/
theorem Change.keepMask (h : Inv n s) (hi : i < n) (hworker : s'.worker = Function.update s.worker i w)
    (hmask : s'.mask = s.mask) (hok : WorkerOk w) (hmarked : w.marked = (s.worker i).marked)
    (hword : WordChange s.word s'.word (s.worker i) w) : Change n s s' := by
  refine .worker i w hi hworker hok ?_ (fun j _ => by rw [hmask]) hword
  rw [hmask, h.bit i, hmarked]

/-- a step outside critical sections and parks, within the idle loop -/
theorem Change.outside (h : Inv n s) (hi : i < n) (hworker : s'.worker = Function.update s.worker i w)
    (hmask : s'.mask = s.mask) (ho : (s.worker i).pc.outside = true) (ho' : w.pc.outside = true)
    (hidle : w.idle = (s.worker i).idle) (hl : w.lock = (s.worker i).lock) (hb : w.blocked = (s.worker i).blocked)
    (hword : s'.word = s.word ∨ s'.word = wrappingAdd s.word oneJec) : Change n s s' := by
  obtain ⟨hok, hmarked, hcounted⟩ := (h.ok i).move w ho ho' hl hb
  apply Change.keepMask w h hi hworker hmask hok hmarked
  rcases hword with hx | hx
  · exact .same hx hidle hcounted
  · exact .jec hx hidle hcounted

/-- a step inside the worker's own critical section, before the park and after it -/
theorem Change.inSection (h : Inv n s) (hi : i < n) (hworker : s'.worker = Function.update s.worker i w)
    (hs : (s.worker i).pc.inSection = true) (hp : (s.worker i).pc.parked = false) (hs' : w.pc.inSection = true)
    (hp' : w.pc.parked = false) (hl : w.lock = (s.worker i).lock) (hb : w.blocked = (s.worker i).blocked)
    (hbit : s'.mask.bit i = w.pc.masked) (hbits : ∀ j, j ≠ i → s'.mask.bit j = s.mask.bit j)
    (hword : w.idle = (s.worker i).idle → (s.worker i).counted = (s.worker i).pc.committed →
      w.counted = w.pc.committed → WordChange s.word s'.word (s.worker i) w) : Change n s s' := by
  have hself : (s.worker i).lock = .self := (h.ok i).self.2 hs
  have hblocked : w.blocked = false := hb.trans ((h.ok i).blocked_eq_false hp)
  have hidle : ∀ v : Worker, v.pc.inSection = true → v.idle = true := by
    intro v hv
    apply Worker.idle_of_ne
    intro hactive
    rw [hactive] at hv
    cases hv
  refine .worker i w hi hworker (.of_section (hl.trans hself) hs' hblocked) ?_ hbits ?_
  · rw [hbit, Worker.marked_of_self (hl.trans hself), hblocked, Bool.false_or]
  · exact hword ((hidle w hs').trans (hidle _ hs).symm) (Worker.counted_of_not_parked hp) (Worker.counted_of_not_parked hp')

/-- what the mask says of a worker in its own critical section, before the park and after it -/
theorem Inv.bit_inSection (h : Inv n s) (hs : (s.worker i).pc.inSection = true) (hp : (s.worker i).pc.parked = false) :
    s.mask.bit i = (s.worker i).pc.masked := by
  rw [h.bit i, Worker.marked_of_self ((h.ok i).self.2 hs), (h.ok i).blocked_eq_false hp, Bool.false_or]

/-- the steps outside critical sections and parks -/
theorem idleStep_outside {tuning : Tuning} {o : Found} (h : Inv n s) (hi : i < n) (ho : (s.worker i).pc.outside = true)
    (hne : (s.worker i).pc ≠ .workFound) (hlock : (s.worker i).pc ≠ .lock) (hs : idleStep tuning s i o = some s') :
    Change n s s' := by
  have hidle : ∀ pc, (s.worker i).pc = pc → pc ≠ .active → ∀ v : Worker, v.pc ≠ .active → v.idle = (s.worker i).idle := by
    intro pc hpc hpa v hv
    rw [Worker.idle_of_ne hv, Worker.idle_of_ne (hpc ▸ hpa)]
  have hmove : ∀ (pc : Pc) (v : Worker) (r : St), (s.worker i).pc = pc → pc ≠ .active → v.pc ≠ .active →
      v.pc.outside = true → v.lock = (s.worker i).lock → v.blocked = (s.worker i).blocked →
      (r.word = s.word ∨ r.word = wrappingAdd s.word oneJec) → r.mask = s.mask → r.worker = s.worker →
      Change n s (r.setWorker i v) := by
    intro pc v r hpc hpa hv hv' hl hb hword hmask hworker
    exact .outside v h hi (by rw [St.setWorker_worker, hworker]) hmask ho hv' (hidle pc hpc hpa v hv) hl hb hword
  cases hpc : (s.worker i).pc with
  | probe =>
    simp only [idleStep, hpc, Option.some.injEq] at hs
    subst hs
    split_ifs
    · exact hmove _ _ s hpc (by decide) (by simp) rfl rfl rfl (.inl rfl) rfl rfl
    · exact hmove _ _ s hpc (by decide) (by simp) rfl rfl rfl (.inl rfl) rfl rfl
  | find =>
    simp only [idleStep, hpc] at hs
    cases o with
    | none =>
      obtain rfl := Option.some.inj hs
      exact hmove _ _ s hpc (by decide) (by simp) rfl rfl rfl (.inl rfl) rfl rfl
    | injected =>
      simp only at hs
      split_ifs at hs
      obtain rfl := Option.some.inj hs
      exact hmove _ _ (s.setInjected _) hpc (by decide) (by simp) rfl rfl rfl (.inl rfl) rfl rfl
    | elsewhere =>
      obtain rfl := Option.some.inj hs
      exact hmove _ _ s hpc (by decide) (by simp) rfl rfl rfl (.inl rfl) rfl rfl
  | noWork =>
    simp only [idleStep, hpc] at hs
    split_ifs at hs <;> obtain rfl := Option.some.inj hs
    · exact hmove _ _ s hpc (by decide) (by simp) rfl rfl rfl (.inl rfl) rfl rfl
    · exact hmove _ _ s hpc (by decide) (by simp) rfl rfl rfl (.inl rfl) rfl rfl
    · exact hmove _ _ s hpc (by decide) (by simp) rfl rfl rfl (.inl rfl) rfl rfl
  | announceLoad =>
    simp only [idleStep, hpc] at hs
    split_ifs at hs <;> obtain rfl := Option.some.inj hs
    · exact hmove _ _ s hpc (by decide) (by simp) rfl rfl rfl (.inl rfl) rfl rfl
    · exact hmove _ _ s hpc (by decide) (by simp) rfl rfl rfl (.inl rfl) rfl rfl
  | announceCas old =>
    simp only [idleStep, hpc] at hs
    split_ifs at hs with hold
    · rw [Option.some.injEq] at hs
      subst hs hold
      exact hmove _ _ (s.setWord _) hpc (by simp) (by simp) (by rw [Worker.announced_pc]; rfl) (by simp) (by simp)
        (.inr (St.setWord_word _ _)) (by simp) (by simp)
    · obtain rfl := Option.some.inj hs
      exact hmove _ _ s hpc (by simp) (by simp) rfl rfl rfl (.inl rfl) rfl rfl
  | getSleepy =>
    simp only [idleStep, hpc] at hs
    split_ifs at hs <;> obtain rfl := Option.some.inj hs
    · exact hmove _ _ (s.setLatch _ _) hpc (by decide) (by simp) rfl rfl rfl (.inl rfl) rfl rfl
    · exact hmove _ _ s hpc (by decide) (by simp) rfl rfl rfl (.inl rfl) rfl rfl
  | active => simp [idleStep, hpc] at hs
  | waiting => simp [idleStep, hpc] at hs
  | lock => exact absurd hpc hlock
  | workFound => exact absurd hpc hne
  | fallAsleep | maskSet | load | commit _ | finalCheck | retract | maskClear | setBlocked | waitLoop | relock | wakeUp
  | wakeUpCas | unlock => simp [hpc, Pc.outside, Pc.inSection, Pc.parked] at ho

/-- the steps inside the worker's own critical section, before the park and after it -/
theorem idleStep_inSection {tuning : Tuning} {o : Found} (h : Inv n s) (hi : i < n)
    (hsec : (s.worker i).pc.inSection = true) (hp : (s.worker i).pc.parked = false) (hne : (s.worker i).pc ≠ .setBlocked)
    (hun : (s.worker i).pc ≠ .unlock) (hs : idleStep tuning s i o = some s') : Change n s s' := by
  have hbit := h.bit_inSection hsec hp
  -- steps that touch neither the mask nor the word
  have hmove : ∀ (v : Worker) (r : St), v.pc.inSection = true → v.pc.parked = false → v.lock = (s.worker i).lock →
      v.blocked = (s.worker i).blocked → v.pc.masked = (s.worker i).pc.masked →
      v.pc.committed = (s.worker i).pc.committed → r.word = s.word → r.mask = s.mask → r.worker = s.worker →
      Change n s (r.setWorker i v) := by
    intro v r hv hv' hl hb hm hc hword hmask hworker
    apply Change.inSection v h hi (by rw [St.setWorker_worker, hworker]) hsec hp hv hv' hl hb
    · rw [St.setWorker_mask, hmask, hbit, hm]
    · intro j _
      rw [St.setWorker_mask, hmask]
    · intro hidle hcw hcv
      exact .same (by rw [St.setWorker_word, hword]) hidle (by rw [hcw, hcv, hc])
  cases hpc : (s.worker i).pc with
  | fallAsleep =>
    simp only [idleStep, hpc] at hs
    split_ifs at hs <;> obtain rfl := Option.some.inj hs
    · exact hmove _ (s.setLatch _ _) rfl rfl rfl rfl (by rw [hpc]; rfl) (by rw [hpc]; rfl) rfl rfl rfl
    · exact hmove _ s rfl rfl rfl rfl (by rw [hpc]; rfl) (by rw [hpc]; rfl) rfl rfl rfl
  | maskSet =>
    simp only [idleStep, hpc, Option.some.injEq] at hs
    subst hs
    apply Change.inSection ((s.worker i).goto .load) h hi (by simp) hsec hp rfl rfl rfl rfl
    · simp [SleepMask.bit_set, Pc.masked]
    · intro j hj
      simp [SleepMask.bit_set, hj]
    · intro hidle hcw hcv
      exact .same (by simp) hidle (by rw [hcw, hcv, hpc]; rfl)
  | load =>
    simp only [idleStep, hpc] at hs
    split_ifs at hs <;> obtain rfl := Option.some.inj hs
    · exact hmove _ s rfl rfl rfl rfl (by rw [hpc]; rfl) (by rw [hpc]; rfl) rfl rfl rfl
    · exact hmove _ s rfl rfl rfl rfl (by rw [hpc]; rfl) (by rw [hpc]; rfl) rfl rfl rfl
  | commit old =>
    simp only [idleStep, hpc] at hs
    split_ifs at hs with hold
    · rw [Option.some.injEq] at hs
      subst hs hold
      apply Change.inSection ((s.worker i).goto .finalCheck) h hi (by simp) hsec hp rfl rfl rfl rfl
      · simp [hbit, hpc, Pc.masked]
      · simp
      · intro hidle hcw hcv
        exact .addSleeping (by simp) hidle (by rw [hcw, hpc]; rfl) (by rw [hcv]; rfl)
    · obtain rfl := Option.some.inj hs
      exact hmove _ s rfl rfl rfl rfl (by rw [hpc]; rfl) (by rw [hpc]; rfl) rfl rfl rfl
  | finalCheck =>
    simp only [idleStep, hpc, Option.some.injEq] at hs
    subst hs
    split_ifs
    · exact hmove _ s rfl rfl rfl rfl (by rw [hpc]; rfl) (by rw [hpc]; rfl) rfl rfl rfl
    · exact hmove _ s rfl rfl rfl rfl (by rw [hpc]; rfl) (by rw [hpc]; rfl) rfl rfl rfl
  | retract =>
    simp only [idleStep, hpc, Option.some.injEq] at hs
    subst hs
    apply Change.inSection ((s.worker i).wakeFully .maskClear) h hi (by simp) hsec hp rfl rfl rfl rfl
    · simp [hbit, hpc, Pc.masked]
    · simp
    · intro hidle hcw hcv
      exact .subSleeping (by simp) hidle (by rw [hcw, hpc]; rfl) (by rw [hcv]; rfl)
  | maskClear =>
    simp only [idleStep, hpc, Option.some.injEq] at hs
    subst hs
    apply Change.inSection ((s.worker i).goto .wakeUp) h hi (by simp) hsec hp rfl rfl rfl rfl
    · simp [SleepMask.bit_clear, Pc.masked]
    · intro j hj
      simp [SleepMask.bit_clear, hj]
    · intro hidle hcw hcv
      exact .same (by simp) hidle (by rw [hcw, hcv, hpc]; rfl)
  | wakeUp =>
    simp only [idleStep, hpc, Option.some.injEq] at hs
    subst hs
    split_ifs
    · exact hmove _ s rfl rfl rfl rfl (by rw [hpc]; rfl) (by rw [hpc]; rfl) rfl rfl rfl
    · exact hmove _ s rfl rfl rfl rfl (by rw [hpc]; rfl) (by rw [hpc]; rfl) rfl rfl rfl
  | wakeUpCas =>
    simp only [idleStep, hpc] at hs
    split_ifs at hs <;> obtain rfl := Option.some.inj hs
    · exact hmove _ (s.setLatch _ _) rfl rfl rfl rfl (by rw [hpc]; rfl) (by rw [hpc]; rfl) rfl rfl rfl
    · exact hmove _ s rfl rfl rfl rfl (by rw [hpc]; rfl) (by rw [hpc]; rfl) rfl rfl rfl
  | setBlocked => exact absurd hpc hne
  | unlock => exact absurd hpc hun
  | waitLoop => simp [hpc, Pc.parked] at hp
  | active | probe | find | noWork | announceLoad | announceCas _ | getSleepy | lock | waiting | relock | workFound =>
    simp [hpc, Pc.inSection] at hsec

/-- a parked worker leaves `condvar.wait` -/
theorem Change.wakes (h : Inv n s) (hi : i < n) (hpc : (s.worker i).pc = .waiting)
    (hworker : s'.worker = Function.update s.worker i ((s.worker i).goto .relock)) (hmask : s'.mask = s.mask)
    (hword : s'.word = s.word) : Change n s s' := by
  have hok := h.ok i
  apply Change.keepMask _ h hi hworker hmask
  · refine ⟨?_, fun _ => rfl, hok.taken, fun _ => .inr rfl⟩
    simpa [hpc, Pc.inSection] using hok.self
  · simp [Worker.marked, hpc, Pc.masked]
  · apply WordChange.same hword
    · simp [Worker.idle, hpc]
    · simp [Worker.counted, Worker.claimed, Worker.claiming, hpc, Pc.committed, Pc.parked]

/-- the steps that take or release the worker's own mutex, set its flag or leave the idle loop -/
theorem idleStep_boundary {tuning : Tuning} {o : Found} (h : Inv n s) (hi : i < n)
    (hb : (s.worker i).pc = .lock ∨ (s.worker i).pc = .unlock ∨ (s.worker i).pc = .setBlocked ∨
      (s.worker i).pc = .waitLoop ∨ (s.worker i).pc = .relock ∨ (s.worker i).pc = .workFound)
    (hs : idleStep tuning s i o = some s') : Change n s s' := by
  have hok := h.ok i
  rcases hb with hpc | hpc | hpc | hpc | hpc | hpc
  · simp only [idleStep, hpc] at hs
    split_ifs at hs with hfree
    obtain rfl := Option.some.inj hs
    have hblocked := hok.blocked_eq_false (by rw [hpc]; rfl)
    apply Change.keepMask _ h hi (St.setWorker_worker _ _ _) rfl
    · exact .of_section rfl rfl hblocked
    · simp [Worker.marked, hfree, hpc, Pc.masked]
    · apply WordChange.same rfl
      · simp [Worker.idle, hpc]
      · simp [Worker.counted, hpc, Pc.committed]
  · simp only [idleStep, hpc] at hs
    obtain rfl := Option.some.inj hs
    have hself := hok.self.2 (by rw [hpc]; rfl)
    have hblocked := hok.blocked_eq_false (by rw [hpc]; rfl)
    apply Change.keepMask _ h hi (St.setWorker_worker _ _ _) rfl
    · refine ⟨by simp [Pc.inSection], ?_, by simp, by simp [Worker.claiming]⟩
      intro hbl
      exact absurd (hblocked.symm.trans hbl) Bool.false_ne_true
    · simp [Worker.marked, hself, hpc, Pc.masked]
    · apply WordChange.same rfl
      · simp [Worker.idle, hpc]
      · simp [Worker.counted, hpc, Pc.committed]
  · simp only [idleStep, hpc] at hs
    obtain rfl := Option.some.inj hs
    have hself := hok.self.2 (by rw [hpc]; rfl)
    apply Change.keepMask _ h hi (St.setWorker_worker _ _ _) rfl
    · exact ⟨by simp [hself, Pc.inSection], fun _ => rfl, by simp [hself], by simp [Worker.claiming, hself]⟩
    · simp [Worker.marked, hself, hpc, Pc.masked]
    · apply WordChange.same rfl
      · simp [Worker.idle, hpc]
      · simp [Worker.counted, Worker.claimed, hpc, Pc.committed, Pc.parked]
  · have hself := hok.self.2 (by rw [hpc]; rfl)
    simp only [idleStep, hpc] at hs
    split_ifs at hs with hbl <;> obtain rfl := Option.some.inj hs
    · apply Change.keepMask _ h hi (St.setWorker_worker _ _ _) rfl
      · exact ⟨by simp [Pc.inSection], fun _ => rfl, by simp, by simp [Worker.claiming]⟩
      · simp [Worker.marked, hself, hpc, Pc.masked]
      · apply WordChange.same rfl
        · simp [Worker.idle, hpc]
        · simp [Worker.counted, Worker.claimed, hpc, hbl, Pc.committed, Pc.parked]
    · rw [Bool.not_eq_true] at hbl
      apply Change.keepMask ((s.worker i).wakeFully .wakeUp) h hi (St.setWorker_worker _ _ _) rfl
      · exact .of_section hself rfl hbl
      · simp [Worker.marked, hself, hpc, Pc.masked]
      · apply WordChange.same rfl
        · simp [Worker.idle, hpc]
        · simp [Worker.counted, Worker.claimed, Worker.claiming, hself, hpc, hbl, Pc.committed, Pc.parked]
  · simp only [idleStep, hpc] at hs
    split_ifs at hs with hfree
    obtain rfl := Option.some.inj hs
    apply Change.keepMask _ h hi (St.setWorker_worker _ _ _) rfl
    · exact ⟨by simp [Pc.inSection], fun _ => rfl, by simp, by simp [Worker.claiming]⟩
    · simp [Worker.marked, hfree, hpc, Pc.masked]
    · apply WordChange.same rfl
      · simp [Worker.idle, hpc]
      · simp [Worker.counted, Worker.claimed, Worker.claiming, hfree, hpc, Pc.committed, Pc.parked]
  · simp only [idleStep, hpc, Option.some.injEq] at hs
    subst hs
    obtain ⟨hok', hmarked, hcounted⟩ :=
      hok.move ((s.worker i).goto .active) (by rw [hpc]; rfl) rfl rfl rfl
    apply Change.keepMask ((s.worker i).goto .active) h hi (by simp) (by simp) hok' hmarked
    exact .subInactive (by simp) hcounted (Worker.idle_of_ne (by simp [hpc])) (by simp [Worker.idle])

theorem idleStep_change {tuning : Tuning} {o : Found} (h : Inv n s) (hi : i < n) (hs : idleStep tuning s i o = some s') :
    Change n s s' := by
  cases hpc : (s.worker i).pc with
  | active | waiting => simp [idleStep, hpc] at hs
  | probe | find | noWork | announceLoad | announceCas _ | getSleepy =>
    exact idleStep_outside h hi (by rw [hpc]; rfl) (by simp [hpc]) (by simp [hpc]) hs
  | fallAsleep | maskSet | load | commit _ | finalCheck | retract | maskClear | wakeUp | wakeUpCas =>
    exact idleStep_inSection h hi (by rw [hpc]; rfl) (by rw [hpc]; rfl) (by simp [hpc]) (by simp [hpc]) hs
  | lock | unlock | setBlocked | waitLoop | relock | workFound => exact idleStep_boundary h hi (by simp [hpc]) hs

/-! ## Wakers -/

/-- a mutex that is not the worker's own has the worker outside its critical section -/
theorem WorkerOk.notInSection {v : Worker} (h : WorkerOk v) (hl : v.lock ≠ .self) : v.pc.inSection = false := by
  by_contra hs
  exact hl (h.self.2 (Bool.not_eq_false _ ▸ hs))

theorem Pc.masked_of_notInSection {pc : Pc} (h : pc.inSection = false) : pc.masked = false := by
  cases pc <;> simp_all [Pc.inSection, Pc.masked]

/-- a parked worker that does not hold its mutex is in `condvar.wait` or on its way out of it -/
theorem Pc.waiting_or_relock {pc : Pc} (h : pc.inSection = false) (hp : pc.parked = true) : pc = .waiting ∨ pc = .relock := by
  cases pc <;> simp_all [Pc.inSection, Pc.parked]

/-- a waker takes or releases the mutex of a worker it has not claimed, or finds the flag clear -/
theorem Change.relocked (h : Inv n s) (hi : i < n) (l : Lock) (hl : (s.worker i).lock ≠ .self) (hl' : l ≠ .self)
    (hcl : (s.worker i).claiming = false) (hcl' : ({ s.worker i with lock := l } : Worker).claiming = false)
    (htaken : ∀ t sec, l = .waker t sec → sec ≠ .check → (s.worker i).blocked = false)
    (hworker : s'.worker = Function.update s.worker i { s.worker i with lock := l }) (hmask : s'.mask = s.mask)
    (hword : s'.word = s.word) : Change n s s' := by
  have hok := h.ok i
  have hout := hok.notInSection hl
  have hmarked : ∀ v : Worker, v.claiming = false → v.marked = (v.blocked || v.pc.masked) := by
    intro v hv
    unfold Worker.claiming at hv
    unfold Worker.marked
    split at hv <;> simp_all
  apply Change.keepMask _ h hi hworker hmask
  · refine ⟨?_, hok.blocked, htaken, ?_⟩
    · simp [hl', hout]
    · intro hc
      exact absurd (hcl'.symm.trans hc) Bool.false_ne_true
  · rw [hmarked _ hcl, hmarked _ hcl']
  · refine .same hword rfl ?_
    simp only [Worker.counted, Worker.claimed, hcl, hcl']

/-- the waker's critical section: the flag, the bit and the unit go in this order -/
theorem sectionStep_change {t : ℕ} {k : Caller} {sec : Section} (h : Inv n s) (hi : i < n)
    (hl : (s.worker i).lock = .waker t sec) : Change n s (sectionStep s t i k sec) := by
  have hok := h.ok i
  have hnself : (s.worker i).lock ≠ .self := by simp [hl]
  have hout := hok.notInSection hnself
  cases sec with
  | check =>
    unfold sectionStep
    split_ifs with hb
    · have hpark := hok.blocked hb
      have hwait := Pc.waiting_or_relock hout hpark
      apply Change.keepMask _ h hi (St.setWorker_worker _ _ _) rfl
      · exact ⟨by simp [hout], by simp, fun _ _ _ _ => rfl, fun _ => hwait⟩
      · simp [Worker.marked, hl, hb]
      · refine .same rfl rfl ?_
        simp [Worker.counted, Worker.claimed, Worker.claiming, hb]
    · apply Change.relocked h hi (.waker t (.unlock false)) hnself (by simp) (by simp [Worker.claiming, hl])
        (by simp [Worker.claiming]) (fun _ _ _ _ => Bool.not_eq_true _ ▸ hb) (St.setWorker_worker _ _ _) rfl rfl
  | maskClear =>
    have hwait := hok.claiming (by simp [Worker.claiming, hl])
    have hblocked := hok.taken t _ hl (by simp)
    refine .worker i _ hi (St.setWorker_worker _ _ _) ?_ ?_ ?_ ?_
    · exact ⟨by simp [hout], by simp [hblocked], fun _ _ _ _ => hblocked, fun _ => hwait⟩
    · simp [sectionStep, Worker.marked, SleepMask.bit_clear]
    · intro j hj
      simp [sectionStep, SleepMask.bit_clear, hj]
    · refine .same rfl rfl ?_
      simp [Worker.counted, Worker.claimed, Worker.claiming, hl]
  | subSleeping =>
    have hwait := hok.claiming (by simp [Worker.claiming, hl])
    have hblocked := hok.taken t _ hl (by simp)
    have hpark : (s.worker i).pc.parked = true ∧ (s.worker i).pc.committed = true := by
      rcases hwait with hpc | hpc
      · rw [hpc]
        exact ⟨rfl, rfl⟩
      · rw [hpc]
        exact ⟨rfl, rfl⟩
    apply Change.keepMask { s.worker i with lock := .waker t (.unlock true) } h hi (by simp [sectionStep])
      (by simp [sectionStep])
    · exact ⟨by simp [hout], by simp [hblocked], fun _ _ _ _ => hblocked, by simp [Worker.claiming]⟩
    · simp [Worker.marked, hl, hblocked, Pc.masked_of_notInSection hout]
    · refine .subSleeping (by simp [sectionStep]) rfl ?_ ?_
      · simp [Worker.counted, Worker.claimed, Worker.claiming, hl, hpark.2]
      · simp [Worker.counted, Worker.claimed, Worker.claiming, hblocked, hpark.1]
  | unlock woken =>
    exact Change.relocked h hi .free hnself (by simp) (by simp [Worker.claiming, hl]) (by simp [Worker.claiming]) (by simp)
      (by simp [sectionStep]) (by simp [sectionStep]) (by simp [sectionStep])

/-- a waker in or past a critical section is at a worker of the pool -/
def Targets (n : ℕ) (s : St) : Prop := ∀ t j k, s.post t = .inside j k ∨ s.post t = .notify j k → j < n

theorem postStep_change {t seg : ℕ} (h : Inv n s) (htar : Targets n s)
    (hs : postStep n s t seg = some s') : Change n s s' := by
  cases hp : s.post t with
  | none => simp [postStep, hp] at hs
  | pushing rest count wasEmpty =>
    simp only [postStep, hp] at hs
    split_ifs at hs <;> obtain rfl := Option.some.inj hs <;> exact .quiet rfl rfl rfl
  | jobsLoad kind numJobs wasEmpty =>
    simp only [postStep, hp] at hs
    split_ifs at hs <;> obtain rfl := Option.some.inj hs <;> exact .quiet rfl rfl rfl
  | jobsCas kind numJobs wasEmpty old =>
    simp only [postStep, hp] at hs
    split_ifs at hs with hold
    · rw [Option.some.injEq] at hs
      subst hs hold
      exact .jec (by simp) (by simp) (by simp)
    · obtain rfl := Option.some.inj hs
      exact .quiet rfl rfl rfl
  | scan f =>
    simp only [postStep, hp] at hs
    split_ifs at hs <;> obtain rfl := Option.some.inj hs <;> exact .quiet rfl rfl rfl
  | bits f =>
    simp only [postStep, hp] at hs
    split_ifs at hs <;> obtain rfl := Option.some.inj hs <;> exact .quiet rfl rfl rfl
  | enter i k =>
    simp only [postStep, hp] at hs
    split_ifs at hs with hfree
    obtain rfl := Option.some.inj hs
    exact Change.relocked h hfree.1 (.waker t .check) (by simp [hfree.2]) (by simp) (by simp [Worker.claiming, hfree.2])
      (by simp [Worker.claiming]) (by simp_all) rfl rfl rfl
  | inside i k =>
    have hi := htar t i k (.inl hp)
    simp only [postStep, hp] at hs
    split at hs
    · rename_i t' sec hl
      split_ifs at hs with ht
      subst ht
      obtain rfl := Option.some.inj hs
      exact sectionStep_change h hi hl
    · cases hs
  | notify i k =>
    have hi := htar t i k (.inr hp)
    simp only [postStep, hp, Option.some.injEq] at hs
    subst hs
    split_ifs with hw
    · exact Change.wakes h hi hw (by simp) rfl rfl
    · exact .quiet rfl rfl rfl

theorem step_change {tuning : Tuning} {owner : ℕ → ℕ} {a : Act} (h : Inv n s) (htar : Targets n s)
    (hs : step n tuning owner s a = some s') : Change n s s' := by
  cases a with
  | look i l =>
    simp only [step] at hs
    split_ifs at hs with hc
    rw [Option.some.injEq] at hs
    subst hs
    have hpc := hc.2.2.2 hc.1
    obtain ⟨hok, hmarked, hcounted⟩ := (h.ok i).move ((s.worker i).look l) (by rw [hpc]; rfl) rfl rfl rfl
    apply Change.keepMask ((s.worker i).look l) h hc.1 (by simp) (by simp) hok hmarked
    exact .addInactive (by simp) hcounted (by simp [Worker.idle, hpc]) (Worker.idle_of_ne (by simp))
  | idle i o =>
    simp only [step] at hs
    split_ifs at hs with hi
    exact idleStep_change h hi hs
  | spurious i =>
    simp only [step] at hs
    split_ifs at hs with hc
    obtain rfl := Option.some.inj hs
    exact Change.wakes h hc.1 hc.2 (by simp) rfl rfl
  | inject t count =>
    simp only [step] at hs
    split_ifs at hs
    obtain rfl := Option.some.inj hs
    exact .quiet rfl rfl rfl
  | internal t numJobs wasEmpty =>
    simp only [step] at hs
    split_ifs at hs
    obtain rfl := Option.some.inj hs
    exact .quiet rfl rfl rfl
  | setLatch t l =>
    simp only [step] at hs
    split_ifs at hs <;> obtain rfl := Option.some.inj hs <;> exact .quiet rfl rfl rfl
  | post t seg => exact postStep_change h htar hs

/-- what an idle step leaves alone: the other workers, all postings but the cascade of `work_found`, the other latches, and
who holds the mutex unless it is the worker -/
structure Frame (s s' : St) (i : ℕ) : Prop where
  worker : ∃ w, s'.worker = Function.update s.worker i w ∧ w.latch = (s.worker i).latch ∧
    ∀ t sec, w.lock = .waker t sec → (s.worker i).lock = .waker t sec
  post : (s.worker i).pc ≠ .workFound → s'.post = s.post
  posts : ∀ t, t ≠ i → s'.post t = s.post t
  latch : ∀ l, l ≠ (s.worker i).latch → s'.latch l = s.latch l

theorem Frame.setWorker {r : St} {v : Worker} (hw : r.worker = s.worker) (hp : r.post = s.post)
    (hl : ∀ l, l ≠ (s.worker i).latch → r.latch l = s.latch l) (hv : v.latch = (s.worker i).latch)
    (hlock : ∀ t sec, v.lock = .waker t sec → (s.worker i).lock = .waker t sec) : Frame s (r.setWorker i v) i :=
  ⟨⟨v, by rw [St.setWorker_worker, hw], hv, hlock⟩, fun _ => hp, fun t _ => congrFun hp t, hl⟩

theorem idleStep_frame {tuning : Tuning} {o : Found} (hs : idleStep tuning s i o = some s') : Frame s s' i := by
  have hkeep : ∀ v : Worker, v.latch = (s.worker i).latch →
      (∀ t sec, v.lock = .waker t sec → (s.worker i).lock = .waker t sec) → Frame s (s.setWorker i v) i := by
    intro v hv hlock
    exact .setWorker rfl rfl (fun _ _ => rfl) hv hlock
  have hword : ∀ x (v : Worker), v.latch = (s.worker i).latch → v.lock = (s.worker i).lock →
      Frame s ((s.setWord x).setWorker i v) i := by
    intro x v hv hlock
    exact .setWorker rfl rfl (fun _ _ => rfl) hv (fun _ _ h => hlock ▸ h)
  have hlatch : ∀ x (v : Worker), v.latch = (s.worker i).latch → v.lock = (s.worker i).lock →
      Frame s ((s.setLatch (s.worker i).latch x).setWorker i v) i := by
    intro x v hv hlock
    refine .setWorker rfl rfl (fun l hl => ?_) hv (fun _ _ h => hlock ▸ h)
    rw [St.setLatch_latch, Function.update_of_ne hl]
  cases hpc : (s.worker i).pc with
  | active | waiting => simp [idleStep, hpc] at hs
  | probe | finalCheck | setBlocked | wakeUp =>
    simp only [idleStep, hpc] at hs
    obtain rfl := Option.some.inj hs
    exact hkeep _ rfl (fun _ _ h => h)
  | find =>
    simp only [idleStep, hpc] at hs
    cases o with
    | none | elsewhere =>
      obtain rfl := Option.some.inj hs
      exact hkeep _ rfl (fun _ _ h => h)
    | injected =>
      simp only at hs
      split_ifs at hs
      obtain rfl := Option.some.inj hs
      exact .setWorker rfl rfl (fun _ _ => rfl) rfl (fun _ _ h => h)
  | noWork | announceLoad | load =>
    simp only [idleStep, hpc] at hs
    split_ifs at hs <;> obtain rfl := Option.some.inj hs <;> exact hkeep _ rfl (fun _ _ h => h)
  | lock | relock =>
    simp only [idleStep, hpc] at hs
    split_ifs at hs
    obtain rfl := Option.some.inj hs
    exact hkeep _ rfl (by simp)
  | waitLoop =>
    simp only [idleStep, hpc] at hs
    split_ifs at hs <;> obtain rfl := Option.some.inj hs
    · exact hkeep _ rfl (by simp)
    · exact hkeep _ rfl (fun _ _ h => h)
  | unlock =>
    simp only [idleStep, hpc] at hs
    obtain rfl := Option.some.inj hs
    exact hkeep _ rfl (by simp)
  | announceCas old | commit old =>
    simp only [idleStep, hpc] at hs
    split_ifs at hs <;> obtain rfl := Option.some.inj hs
    · exact hword _ _ (by simp) (by simp)
    · exact hkeep _ rfl (fun _ _ h => h)
  | getSleepy | fallAsleep | wakeUpCas =>
    simp only [idleStep, hpc] at hs
    split_ifs at hs <;> obtain rfl := Option.some.inj hs
    · exact hlatch _ _ rfl rfl
    · exact hkeep _ rfl (fun _ _ h => h)
  | maskSet | maskClear =>
    simp only [idleStep, hpc] at hs
    obtain rfl := Option.some.inj hs
    exact .setWorker rfl rfl (fun _ _ => rfl) rfl (fun _ _ h => h)
  | retract =>
    simp only [idleStep, hpc] at hs
    obtain rfl := Option.some.inj hs
    exact hword _ _ (by simp) (by simp)
  | workFound =>
    simp only [idleStep, hpc] at hs
    obtain rfl := Option.some.inj hs
    refine ⟨⟨(s.worker i).goto .active, by simp, rfl, fun _ _ h => h⟩, fun h => absurd hpc h, fun t ht => ?_, by simp⟩
    rw [St.setPost_post, Function.update_of_ne ht, St.setWorker_post, St.setWord_post]

/-- what a posting can become: a predicate that survives every turn of a posting, whatever the other threads do -/
structure Closed (n : ℕ) (P : Post → Prop) : Prop where
  none : P .none
  jobsLoad : ∀ kind numJobs wasEmpty, P (.jobsLoad kind numJobs wasEmpty)
  jobsCas : ∀ kind numJobs wasEmpty old, P (.jobsCas kind numJobs wasEmpty old)
  scan : ∀ f, P (.scan f)
  bits : ∀ f, P (.bits f)
  enter : ∀ i k, P (.enter i k)
  pushing : ∀ rest count wasEmpty seg, P (.pushing rest count wasEmpty) → P (.pushing (rest - seg) count wasEmpty)
  inside : ∀ i k, i < n → P (.inside i k)
  notify : ∀ i k, P (.inside i k) → P (.notify i k)

section Posts

variable {P : Post → Prop} {t seg : ℕ}

theorem Closed.startScan (hc : Closed n P) (kind : Kind) (target : ℕ) : P (startScan kind target) := by
  unfold Pool.startScan
  split_ifs
  · exact hc.none
  · exact hc.scan _

theorem Closed.resume (hc : Closed n P) (k : Caller) (woken : Bool) : P (k.resume woken) := by
  cases k with
  | latch l => exact hc.none
  | scan f =>
    cases woken with
    | false =>
      simp only [Caller.resume]
      split_ifs
      · exact hc.scan _
      · exact hc.none
    | true =>
      simp only [Caller.resume]
      split_ifs
      · exact hc.none
      · exact hc.bits _

theorem posts_setPost {p : Post} (h : ∀ u, P (s.post u)) (hp : P p) (hpost : s'.post = Function.update s.post t p) :
    ∀ u, P (s'.post u) := by
  intro u
  rw [hpost]
  by_cases hut : u = t
  · rwa [hut, Function.update_self]
  · rw [Function.update_of_ne hut]
    exact h u

theorem idleStep_posts {tuning : Tuning} {o : Found} (hc : Closed n P) (h : ∀ u, P (s.post u))
    (hs : idleStep tuning s i o = some s') : ∀ u, P (s'.post u) := by
  by_cases hpc : (s.worker i).pc = .workFound
  · simp only [idleStep, hpc, Option.some.injEq] at hs
    subst hs
    apply posts_setPost h (hc.startScan _ _)
    rw [St.setPost_post, St.setWorker_post, St.setWord_post]
  · rw [(idleStep_frame hs).post hpc]
    exact h

theorem sectionStep_posts {k : Caller} (hc : Closed n P) (h : ∀ u, P (s.post u)) (hp : P (.inside i k)) (sec : Section) :
    ∀ u, P ((sectionStep s t i k sec).post u) := by
  cases sec with
  | check =>
    unfold sectionStep
    split_ifs <;> exact h
  | maskClear => exact h
  | subSleeping =>
    simp only [sectionStep, St.setWorker_post, St.setWord_post]
    exact h
  | unlock woken =>
    refine posts_setPost h ?_ rfl
    cases woken with
    | true => exact hc.notify i k hp
    | false => exact hc.resume k false

theorem postStep_posts (hc : Closed n P) (h : ∀ u, P (s.post u)) (hs : postStep n s t seg = some s') :
    ∀ u, P (s'.post u) := by
  have ht := h t
  cases hp : s.post t with
  | none => simp [postStep, hp] at hs
  | pushing rest count wasEmpty =>
    simp only [postStep, hp] at hs
    split_ifs at hs <;> obtain rfl := Option.some.inj hs
    · exact posts_setPost h (hc.jobsLoad _ _ _) rfl
    · exact posts_setPost h hc.none rfl
    · exact posts_setPost h (hc.pushing _ _ _ _ (hp ▸ ht)) rfl
  | jobsLoad kind numJobs wasEmpty =>
    simp only [postStep, hp] at hs
    split_ifs at hs <;> obtain rfl := Option.some.inj hs
    · exact posts_setPost h (hc.jobsCas _ _ _ _) rfl
    · exact posts_setPost h (hc.startScan _ _) rfl
  | jobsCas kind numJobs wasEmpty old =>
    simp only [postStep, hp] at hs
    split_ifs at hs <;> obtain rfl := Option.some.inj hs
    · exact posts_setPost h (hc.startScan _ _) (by rw [St.setPost_post, St.setWord_post])
    · exact posts_setPost h (hc.jobsLoad _ _ _) rfl
  | scan f =>
    simp only [postStep, hp] at hs
    split_ifs at hs <;> obtain rfl := Option.some.inj hs
    · exact posts_setPost h (hc.bits _) rfl
    · exact posts_setPost h hc.none rfl
  | bits f =>
    simp only [postStep, hp] at hs
    split_ifs at hs <;> obtain rfl := Option.some.inj hs
    · exact posts_setPost h (hc.scan _) rfl
    · exact posts_setPost h (hc.enter _ _) rfl
  | enter i k =>
    simp only [postStep, hp] at hs
    split_ifs at hs with hfree
    obtain rfl := Option.some.inj hs
    exact posts_setPost h (hc.inside i k hfree.1) rfl
  | inside i k =>
    simp only [postStep, hp] at hs
    split at hs
    · split_ifs at hs
      obtain rfl := Option.some.inj hs
      exact sectionStep_posts hc h (hp ▸ ht) _
    · cases hs
  | notify i k =>
    simp only [postStep, hp, Option.some.injEq] at hs
    subst hs
    split_ifs
    · exact posts_setPost h (hc.resume k true) rfl
    · exact posts_setPost h (hc.resume k true) rfl

/-- what holds of all postings after a step, for a predicate that new injections meet -/
theorem step_posts {tuning : Tuning} {owner : ℕ → ℕ} {a : Act} (hc : Closed n P) (h : ∀ u, P (s.post u))
    (ha : ∀ t count wasEmpty, a = .inject t count → P (.pushing count count wasEmpty))
    (hs : step n tuning owner s a = some s') : ∀ u, P (s'.post u) := by
  cases a with
  | look i l =>
    simp only [step] at hs
    split_ifs at hs
    obtain rfl := Option.some.inj hs
    simp only [St.setWorker_post, St.setWord_post]
    exact h
  | idle i o =>
    simp only [step] at hs
    split_ifs at hs
    exact idleStep_posts hc h hs
  | spurious i =>
    simp only [step] at hs
    split_ifs at hs
    obtain rfl := Option.some.inj hs
    exact h
  | inject t count =>
    simp only [step] at hs
    split_ifs at hs
    obtain rfl := Option.some.inj hs
    exact posts_setPost h (ha t count _ rfl) rfl
  | internal t numJobs wasEmpty =>
    simp only [step] at hs
    split_ifs at hs
    obtain rfl := Option.some.inj hs
    exact posts_setPost h (hc.jobsLoad _ _ _) rfl
  | setLatch t l =>
    simp only [step] at hs
    split_ifs at hs <;> obtain rfl := Option.some.inj hs
    · exact posts_setPost h (hc.enter _ _) rfl
    · exact posts_setPost h hc.none rfl
  | post t seg => exact postStep_posts hc h hs

end Posts

/-- only `enter` leads into a critical section -/
theorem step_targets {tuning : Tuning} {owner : ℕ → ℕ} {a : Act} (h : Targets n s)
    (hs : step n tuning owner s a = some s') : Targets n s' := by
  apply step_posts (P := fun p => ∀ j k, p = .inside j k ∨ p = .notify j k → j < n) _ h (by simp) hs
  constructor
  case inside =>
    intro i k hi j k' hp
    rcases hp with hp | hp
    · cases hp
      exact hi
    · cases hp
  case notify =>
    intro i k hin j k' hp
    rcases hp with hp | hp
    · cases hp
    · cases hp
      exact hin i k (.inl rfl)
  all_goals simp

end Steps

/-! ## Runs -/

theorem init_inv (n : ℕ) : Inv n init := by
  have hidle : tally n Worker.idle init.worker = 0 := by simp [tally, init, Worker.new, Worker.idle]
  have hcount : tally n Worker.counted init.worker = 0 := by
    simp [tally, init, Worker.new, Worker.counted, Pc.committed]
  refine ⟨fun i => ?_, fun i => ?_, ⟨0, by decide, ?_⟩⟩
  · exact ⟨by simp [init, Worker.new, Pc.inSection], by simp [init, Worker.new], by simp [init, Worker.new],
      by simp [init, Worker.new, Worker.claiming]⟩
  · simp [init, Worker.new, Worker.marked, SleepMask.bit, Pc.masked]
  · rw [hidle, hcount]
    rfl

theorem run_inv {n : ℕ} {tuning : Tuning} {owner : ℕ → ℕ} (hn : n ≤ threadsMax) {acts : List Act} {s s' : St}
    (h : Inv n s) (htar : Targets n s) (hrun : run n tuning owner s acts = some s') : Inv n s' ∧ Targets n s' := by
  refine Machine.run_keeps (P := fun s => Inv n s ∧ Targets n s) (fun _ hi hs => ?_) ⟨h, htar⟩ hrun
  exact ⟨((step_change hi.1 hi.2 hs).inv hn hi.1).1, step_targets hi.2 hs⟩

/-- the state of every run from the start -/
theorem reachable_inv {n : ℕ} {tuning : Tuning} {owner : ℕ → ℕ} (hn : n ≤ threadsMax) {acts : List Act} {s : St}
    (hrun : run n tuning owner init acts = some s) : Inv n s ∧ Targets n s :=
  run_inv hn (init_inv n) (by intro t j k ht; simp [init] at ht) hrun

/-- **sleep state**: in every reachable state of a pool of at most 511 workers
- the sleeping field is the number of workers parked, or between their commit exchange and the park, that no waker has
  claimed, and it is at most the inactive field;
- every step changes the word in at most one field, by one, with no carry or borrow;
- a worker whose sleep mutex is free has its mask bit set iff its flag is set. -/
theorem sleep_state {n : ℕ} {tuning : Tuning} {owner : ℕ → ℕ} (hn : n ≤ threadsMax) {acts : List Act} {s : St}
    (hrun : run n tuning owner init acts = some s) :
    sleepingThreads s.word = tally n Worker.counted s.worker ∧
    inactiveThreads s.word = tally n Worker.idle s.worker ∧
    sleepingThreads s.word ≤ inactiveThreads s.word ∧
    (∀ a s', step n tuning owner s a = some s' → OneField s.word s'.word) ∧
    (∀ i < n, (s.worker i).lock = .free → (s.mask.bit i = true ↔ (s.worker i).blocked = true)) := by
  obtain ⟨h, htar⟩ := reachable_inv hn hrun
  obtain ⟨jec, -, hword⟩ := h.word
  have hidle : tally n Worker.idle s.worker ≤ threadsMax := (tally_le n _ _).trans hn
  have hcount : tally n Worker.counted s.worker ≤ threadsMax := (tally_le n _ _).trans hn
  have hs : sleepingThreads s.word = tally n Worker.counted s.worker := by rw [hword, sleepingThreads_pack hcount]
  have hi : inactiveThreads s.word = tally n Worker.idle s.worker := by rw [hword, inactiveThreads_pack hidle hcount]
  refine ⟨hs, hi, ?_, ?_, ?_⟩
  · rw [hs, hi]
    exact h.counted_le_idle
  · intro a s' hstep
    exact ((step_change h htar hstep).inv hn h).2
  · intro i _ hfree
    have hout := (h.ok i).notInSection (by simp [hfree])
    rw [h.bit i]
    simp [Worker.marked, hfree, Pc.masked_of_notInSection hout]

/-- a worker looks for work on a latch and parks, with no spin or yield rounds -/
def park (i l : ℕ) : List Act := .look i l :: List.replicate 16 (.idle i .none)

theorem sleep_state_parked :
    ∃ s, run 2 ⟨0, 0⟩ (fun _ => 0) init (park 0 0) = some s ∧ (s.worker 0).pc = .waiting ∧ sleepingThreads s.word = 1 ∧
      (s.mask.bit 0 = true ↔ (s.worker 0).blocked = true) := by
  obtain ⟨s, hs, hpc, hword, hfree⟩ : ∃ s, run 2 ⟨0, 0⟩ (fun _ => 0) init (park 0 0) = some s ∧
      (s.worker 0).pc = .waiting ∧ sleepingThreads s.word = 1 ∧ (s.worker 0).lock = .free :=
    ⟨_, rfl, rfl, rfl, rfl⟩
  exact ⟨s, hs, hpc, hword, (sleep_state (by decide) hs).2.2.2.2 0 (by decide) hfree⟩

end YouPipe.Pool
