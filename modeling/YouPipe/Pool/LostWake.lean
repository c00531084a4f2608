/-
No lost wake-up (`pool/sleep.rs`, `pool/registry.rs`, `pool/latch.rs`).

(1) Latches (`WakeOk`). A worker on its way to the park has its latch SLEEPING, or SET with a waker that has not yet looked at
its flag. A worker in `condvar.wait` with its flag cleared has a waker that has still to notify it.

(2) Injected jobs (`JobsOk`). While every worker has passed its final check and no waker has cleared its flag, a nonempty
injector has a poster on duty: one between its push and its first successful wake, whose wake cannot miss. The poster
sees every worker asleep in the counter word, so it wakes at least one; the mask has their bits, so the scan finds one.

The second part needs the number of jobs that `inject_batch` reports to be nonzero. It reports its count as a `u32`, so a
batch of 2^32 jobs is pushed and reports none: `batch_lost` is a run in which every worker stays parked over a full injector.
-/
import Mathlib.Tactic
import YouPipe.Core.Machine
import YouPipe.Pool.SleepInv

namespace YouPipe.Pool

open YouPipe.Word YouPipe.Tally

/-! ## Postings -/

/-- a wake of worker `i` is in progress -/
def Post.waking (i : ℕ) : Post → Bool
  | .enter j _ | .inside j _ | .notify j _ => j == i
  | _ => false

def Caller.forInjected : Caller → Bool
  | .scan f => f.kind == .injected
  | .latch _ => false

/-- between the push of injected jobs and the end of their notification -/
def Post.notifying : Post → Bool
  | .pushing rest count _ => decide (rest < count)
  | .jobsLoad kind _ _ | .jobsCas kind _ _ _ => kind == .injected
  | .scan f | .bits f => f.kind == .injected
  | .enter _ k | .inside _ k | .notify _ k => k.forInjected
  | .none => false

/-! ## Latches -/

/-- between the latch's SLEEPING and the return from `condvar.wait`, and not turning back -/
def Pc.falling : Pc → Bool
  | .maskSet | .load | .commit _ | .finalCheck | .setBlocked | .waitLoop | .waiting | .relock => true
  | _ => false

/-- a waker of worker `i` has not yet looked at its flag -/
def Pending (s : St) (i : ℕ) : Prop :=
  ∃ t k, s.post t = .enter i k ∨ (s.post t = .inside i k ∧ (s.worker i).lock = .waker t .check)

/-- a waker has cleared the flag of worker `i` and has still to notify it -/
def Notified (s : St) (i : ℕ) : Prop :=
  (∃ t sec, (s.worker i).lock = .waker t sec ∧ sec ≠ .check ∧ sec ≠ .unlock false) ∨ ∃ t k, s.post t = .notify i k

structure WakeOk (owner : ℕ → ℕ) (s : St) (i : ℕ) : Prop where
  own : (s.worker i).pc ≠ .active → owner (s.worker i).latch = i
  quiet : (s.worker i).pc ≠ .active → s.post i = .none
  notified : (s.worker i).pc = .waiting → (s.worker i).blocked = false → Notified s i
  latch : (s.worker i).pc.falling = true →
    s.latch (s.worker i).latch = .sleeping ∨
      (s.latch (s.worker i).latch = .set ∧
        (((s.worker i).pc.parked = true ∧ (s.worker i).blocked = false) ∨ Pending s i))

/-- a mutex held by a waker: the waker is inside -/
def HolderOk (s : St) : Prop := ∀ i t sec, (s.worker i).lock = .waker t sec → ∃ k, s.post t = .inside i k

section Frame

variable {owner : ℕ → ℕ} {s s' : St} {t j : ℕ}

/-- a thread that has still to look at the flag of worker `j`, or looks at it now -/
def Post.coming (p : Post) (j : ℕ) : Prop := ∃ k, p = .enter j k ∨ p = .inside j k

/-- evidence by other threads outlives a step of thread `t` -/
theorem Pending.frame (hpost : ∀ u, u ≠ t → s'.post u = s.post u) (hlock : (s'.worker j).lock = (s.worker j).lock)
    (ht : ¬ (s.post t).coming j) (h : Pending s j) : Pending s' j := by
  obtain ⟨u, k, hu⟩ := h
  have hut : u ≠ t := by
    intro hut
    subst hut
    exact ht ⟨k, hu.imp_right And.left⟩
  refine ⟨u, k, ?_⟩
  rwa [hpost u hut, hlock]

theorem Notified.frame (hpost : ∀ u, u ≠ t → s'.post u = s.post u)
    (hlock : ∀ u sec, (s.worker j).lock = .waker u sec → sec ≠ .check → sec ≠ .unlock false →
      (s'.worker j).lock = .waker u sec)
    (ht : ∀ k, s.post t ≠ .notify j k) (h : Notified s j) : Notified s' j := by
  rcases h with ⟨u, sec, hl, h1, h2⟩ | ⟨u, k, hu⟩
  · exact .inl ⟨u, sec, hlock u sec hl h1 h2, h1, h2⟩
  · have hut : u ≠ t := by
      intro hut
      subst hut
      exact ht k hu
    exact .inr ⟨u, k, by rwa [hpost u hut]⟩

/-- thread `t` moves and is not the evidence; the worker and its latch do not move -/
theorem WakeOk.frame (hpost : ∀ u, u ≠ t → s'.post u = s.post u) (hworker : s'.worker j = s.worker j)
    (hlatch : (s.worker j).pc ≠ .active → s'.latch (s.worker j).latch = s.latch (s.worker j).latch)
    (hq : (s.worker j).pc ≠ .active → j ≠ t) (ht : ¬ (s.post t).coming j)
    (htn : (s.worker j).pc = .waiting → ∀ k, s.post t ≠ .notify j k) (h : WakeOk owner s j) : WakeOk owner s' j := by
  refine ⟨?_, ?_, ?_, ?_⟩
  · rw [hworker]
    exact h.own
  · rw [hworker]
    intro hact
    rw [hpost j (hq hact)]
    exact h.quiet hact
  · rw [hworker]
    intro hpc hb
    exact (h.notified hpc hb).frame hpost (fun _ _ hl _ _ => by rw [hworker, hl]) (htn hpc)
  · rw [hworker]
    intro hf
    have hact : (s.worker j).pc ≠ .active := by
      intro hpc
      simp [hpc, Pc.falling] at hf
    rw [hlatch hact]
    rcases h.latch hf with hl | ⟨hl, hev | hev⟩
    · exact .inl hl
    · exact .inr ⟨hl, .inl hev⟩
    · exact .inr ⟨hl, .inr (hev.frame hpost (by rw [hworker]) ht)⟩

/-- worker `j` itself moves to a place from which it does not park -/
theorem WakeOk.awake {w : Worker} (h : WakeOk owner s j) (hact : (s.worker j).pc ≠ .active) (hworker : s'.worker j = w)
    (hw : w.latch = (s.worker j).latch) (hf : w.pc.falling = false) (hpost : s'.post = s.post) : WakeOk owner s' j := by
  refine ⟨?_, ?_, ?_, ?_⟩
  · intro _
    rw [hworker, hw]
    exact h.own hact
  · intro _
    rw [hpost]
    exact h.quiet hact
  · rw [hworker]
    intro hpc _
    simp [hpc, Pc.falling] at hf
  · rw [hworker]
    intro hf'
    exact absurd (hf.symm.trans hf') Bool.false_ne_true

/-- worker `j` itself moves on towards the park -/
theorem WakeOk.falls {w : Worker} (h : WakeOk owner s j) (hf : (s.worker j).pc.falling = true)
    (hlock : ∀ t, (s.worker j).lock ≠ .waker t .check) (hworker : s'.worker j = w) (hw : w.latch = (s.worker j).latch)
    (hpark : (s.worker j).pc.parked = true → (s.worker j).blocked = false → w.pc.parked = true ∧ w.blocked = false)
    (hwait : w.pc = .waiting → w.blocked = true) (hpost : s'.post = s.post) (hlatch : s'.latch = s.latch) :
    WakeOk owner s' j := by
  have hact : (s.worker j).pc ≠ .active := by
    intro hpc
    simp [hpc, Pc.falling] at hf
  refine ⟨?_, ?_, ?_, ?_⟩
  · intro _
    rw [hworker, hw]
    exact h.own hact
  · intro _
    rw [hpost]
    exact h.quiet hact
  · rw [hworker]
    intro hpc hb
    exact absurd (hb.symm.trans (hwait hpc)) Bool.false_ne_true
  · intro _
    rw [hworker, hw, hlatch]
    rcases h.latch hf with hl | ⟨hl, hev | ⟨t, k, ht | ht⟩⟩
    · exact .inl hl
    · exact .inr ⟨hl, .inl (hpark hev.1 hev.2)⟩
    · exact .inr ⟨hl, .inr ⟨t, k, .inl (by rwa [hpost])⟩⟩
    · exact absurd ht.2 (hlock t)

end Frame

section Idle

variable {owner : ℕ → ℕ} {tuning : Tuning} {n i : ℕ} {s s' : St} {o : Found}

theorem idleStep_self (hinv : Inv n s) (h : WakeOk owner s i) (hs : idleStep tuning s i o = some s') :
    WakeOk owner s' i := by
  have hok := hinv.ok i
  have hself : (s.worker i).pc.inSection = true → ∀ t, (s.worker i).lock ≠ .waker t .check := by
    intro hsec t
    rw [hok.self.2 hsec]
    simp
  have hupd : ∀ (r : St) (v : Worker), (r.setWorker i v).worker i = v := by
    intro r v
    rw [St.setWorker_worker, Function.update_self]
  cases hpc : (s.worker i).pc with
  | active | waiting => simp [idleStep, hpc] at hs
  | probe =>
    simp only [idleStep, hpc] at hs
    obtain rfl := Option.some.inj hs
    refine h.awake (by simp [hpc]) (hupd _ _) rfl ?_ rfl
    rw [Worker.goto_pc]
    split_ifs <;> rfl
  | find =>
    simp only [idleStep, hpc] at hs
    cases o with
    | none | elsewhere =>
      obtain rfl := Option.some.inj hs
      exact h.awake (by simp [hpc]) (hupd _ _) rfl rfl rfl
    | injected =>
      simp only at hs
      split_ifs at hs
      obtain rfl := Option.some.inj hs
      exact h.awake (by simp [hpc]) (hupd _ _) rfl rfl rfl
  | noWork | announceLoad | lock =>
    simp only [idleStep, hpc] at hs
    split_ifs at hs <;> obtain rfl := Option.some.inj hs <;> exact h.awake (by simp [hpc]) (hupd _ _) rfl rfl rfl
  | announceCas old =>
    simp only [idleStep, hpc] at hs
    split_ifs at hs <;> obtain rfl := Option.some.inj hs
    · exact h.awake (by simp [hpc]) (hupd _ _) (by simp) (by rw [Worker.announced_pc]; rfl) (by simp)
    · exact h.awake (by simp [hpc]) (hupd _ _) rfl rfl rfl
  | getSleepy | wakeUpCas =>
    simp only [idleStep, hpc] at hs
    split_ifs at hs <;> obtain rfl := Option.some.inj hs <;> exact h.awake (by simp [hpc]) (hupd _ _) rfl rfl rfl
  | fallAsleep =>
    simp only [idleStep, hpc] at hs
    split_ifs at hs <;> obtain rfl := Option.some.inj hs
    · refine ⟨?_, ?_, ?_, ?_⟩
      · intro _
        rw [hupd]
        exact h.own (by simp [hpc])
      · intro _
        exact h.quiet (by simp [hpc])
      · rw [hupd]
        intro hw
        simp at hw
      · intro _
        rw [hupd]
        simp
    · exact h.awake (by simp [hpc]) (hupd _ _) rfl rfl rfl
  | maskSet =>
    simp only [idleStep, hpc] at hs
    obtain rfl := Option.some.inj hs
    exact h.falls (by rw [hpc]; rfl) (hself (by rw [hpc]; rfl)) (hupd _ _) rfl (by simp [hpc, Pc.parked]) (by simp) rfl rfl
  | load =>
    simp only [idleStep, hpc] at hs
    split_ifs at hs <;> obtain rfl := Option.some.inj hs
    · exact h.awake (by simp [hpc]) (hupd _ _) rfl rfl rfl
    · exact h.falls (by rw [hpc]; rfl) (hself (by rw [hpc]; rfl)) (hupd _ _) rfl (by simp [hpc, Pc.parked]) (by simp) rfl
        rfl
  | commit old =>
    simp only [idleStep, hpc] at hs
    split_ifs at hs <;> obtain rfl := Option.some.inj hs
    · exact h.falls (by rw [hpc]; rfl) (hself (by rw [hpc]; rfl)) (hupd _ _) rfl (by simp [hpc, Pc.parked]) (by simp)
        (by simp) (by simp)
    · exact h.falls (by rw [hpc]; rfl) (hself (by rw [hpc]; rfl)) (hupd _ _) rfl (by simp [hpc, Pc.parked]) (by simp) rfl
        rfl
  | finalCheck =>
    simp only [idleStep, hpc] at hs
    obtain rfl := Option.some.inj hs
    split_ifs
    · exact h.awake (by simp [hpc]) (hupd _ _) rfl rfl rfl
    · exact h.falls (by rw [hpc]; rfl) (hself (by rw [hpc]; rfl)) (hupd _ _) rfl (by simp [hpc, Pc.parked]) (by simp) rfl
        rfl
  | retract =>
    simp only [idleStep, hpc] at hs
    obtain rfl := Option.some.inj hs
    exact h.awake (by simp [hpc]) (hupd _ _) (by simp) (by rw [Worker.wakeFully_pc]; rfl) (by simp)
  | maskClear | unlock =>
    simp only [idleStep, hpc] at hs
    obtain rfl := Option.some.inj hs
    exact h.awake (by simp [hpc]) (hupd _ _) rfl rfl rfl
  | wakeUp =>
    simp only [idleStep, hpc] at hs
    obtain rfl := Option.some.inj hs
    refine h.awake (by simp [hpc]) (hupd _ _) rfl ?_ rfl
    rw [Worker.goto_pc]
    split_ifs <;> rfl
  | setBlocked =>
    simp only [idleStep, hpc] at hs
    obtain rfl := Option.some.inj hs
    exact h.falls (by rw [hpc]; rfl) (hself (by rw [hpc]; rfl)) (hupd _ _) rfl (by simp [hpc, Pc.parked]) (by simp) rfl rfl
  | waitLoop =>
    simp only [idleStep, hpc] at hs
    split_ifs at hs with hb <;> obtain rfl := Option.some.inj hs
    · exact h.falls (by rw [hpc]; rfl) (hself (by rw [hpc]; rfl)) (hupd _ _) rfl (by simp [hb]) (fun _ => hb) rfl rfl
    · exact h.awake (by simp [hpc]) (hupd _ _) rfl rfl rfl
  | relock =>
    simp only [idleStep, hpc] at hs
    split_ifs at hs with hfree
    obtain rfl := Option.some.inj hs
    exact h.falls (by rw [hpc]; rfl) (by simp [hfree]) (hupd _ _) rfl (fun _ hb => ⟨rfl, hb⟩) (by simp) rfl rfl
  | workFound =>
    simp only [idleStep, hpc] at hs
    obtain rfl := Option.some.inj hs
    refine ⟨?_, ?_, ?_, ?_⟩ <;> simp [Pc.falling]

theorem idleStep_active (hs : idleStep tuning s i o = some s') : (s.worker i).pc ≠ .active := by
  intro hpc
  simp [idleStep, hpc] at hs

theorem idleStep_wake (hinv : Inv n s) (h : ∀ j, WakeOk owner s j) (hs : idleStep tuning s i o = some s') (j : ℕ) :
    WakeOk owner s' j := by
  by_cases hij : j = i
  · subst hij
    exact idleStep_self hinv (h j) hs
  · have hact := idleStep_active hs
    have hf := idleStep_frame hs
    obtain ⟨w, hworker, -, -⟩ := hf.worker
    have hpost := (h i).quiet hact
    apply (h j).frame (t := i) hf.posts
    · rw [hworker, Function.update_of_ne hij]
    · intro hactj
      apply hf.latch
      intro heq
      exact hij (by rw [← (h j).own hactj, heq, (h i).own hact])
    · intro _
      exact hij
    · simp [Post.coming, hpost]
    · simp [hpost]

theorem idleStep_holder (h : ∀ j, WakeOk owner s j) (hh : HolderOk s) (hs : idleStep tuning s i o = some s') :
    HolderOk s' := by
  have hact := idleStep_active hs
  have hf := idleStep_frame hs
  obtain ⟨w, hworker, -, hlock⟩ := hf.worker
  intro j t sec hl
  have hold : (s.worker j).lock = .waker t sec := by
    by_cases hij : j = i
    · subst hij
      rw [hworker, Function.update_self] at hl
      exact hlock t sec hl
    · rwa [hworker, Function.update_of_ne hij] at hl
  obtain ⟨k, hk⟩ := hh j t sec hold
  have hti : t ≠ i := by
    intro hti
    subst hti
    rw [(h t).quiet hact] at hk
    cases hk
  exact ⟨k, by rw [hf.posts t hti, hk]⟩

end Idle

section Posting

variable {owner : ℕ → ℕ} {n t i j seg : ℕ} {s s' : St} {k : Caller}

/-- a posting thread is not in an idle loop -/
theorem ne_of_posting (h : ∀ j, WakeOk owner s j) (hp : s.post t ≠ .none) (hact : (s.worker j).pc ≠ .active) : j ≠ t := by
  intro hjt
  subst hjt
  exact hp ((h j).quiet hact)

theorem setPost_of_ne (p : Post) {u : ℕ} (hu : u ≠ t) : (s.setPost t p).post u = s.post u := by
  rw [St.setPost_post, Function.update_of_ne hu]

theorem Pc.parked_of_falling {pc : Pc} (hf : pc.falling = true) (hs : pc.inSection = false) : pc.parked = true := by
  cases pc <;> simp_all [Pc.falling, Pc.inSection, Pc.parked]

/-- a waker past its look at the flag, which is now clear -/
theorem WakeOk.taken {l : Lock} (h : WakeOk owner s i) (hout : (s.worker i).pc.inSection = false)
    (hi : (s.worker i).pc ≠ .active → i ≠ t) (hworker : s'.worker i = { s.worker i with blocked := false, lock := l })
    (hpost : ∀ u, u ≠ t → s'.post u = s.post u) (hlatch : s'.latch = s.latch)
    (hn : (s.worker i).pc = .waiting → Notified s' i) : WakeOk owner s' i := by
  refine ⟨?_, ?_, ?_, ?_⟩
  · rw [hworker]
    exact h.own
  · rw [hworker]
    intro hact
    rw [hpost i (hi hact)]
    exact h.quiet hact
  · rw [hworker]
    intro hpc _
    exact hn hpc
  · rw [hworker, hlatch]
    intro hf
    rcases h.latch hf with hl | ⟨hl, -⟩
    · exact .inl hl
    · exact .inr ⟨hl, .inl ⟨Pc.parked_of_falling hf hout, rfl⟩⟩

theorem enter_wake (h : WakeOk owner s i) (hi : (s.worker i).pc ≠ .active → i ≠ t) (hp : s.post t = .enter i k)
    (hfree : (s.worker i).lock = .free) :
    WakeOk owner ((s.setWorker i { s.worker i with lock := .waker t .check }).setPost t (.inside i k)) i := by
  have hpost : ∀ u, u ≠ t →
      ((s.setWorker i { s.worker i with lock := .waker t .check }).setPost t (.inside i k)).post u = s.post u := by
    intro u hu
    exact setPost_of_ne _ hu
  refine ⟨?_, ?_, ?_, ?_⟩
  · simpa using h.own
  · intro hact
    have hact' : (s.worker i).pc ≠ .active := by simpa using hact
    rw [hpost i (hi hact')]
    exact h.quiet hact'
  · intro hpc hb
    have hev := h.notified (by simpa using hpc) (by simpa using hb)
    exact hev.frame hpost (by simp [hfree]) (by simp [hp])
  · intro hf
    have hf' : (s.worker i).pc.falling = true := by simpa using hf
    rcases h.latch hf' with hl | ⟨hl, -⟩
    · exact .inl (by simpa using hl)
    · exact .inr ⟨by simpa using hl, .inr ⟨t, k, .inr ⟨by simp, by simp⟩⟩⟩

/-- the waker's critical section -/
theorem section_wake {sec : Section} (hinv : Inv n s) (h : WakeOk owner s i) (hi : (s.worker i).pc ≠ .active → i ≠ t)
    (hp : s.post t = .inside i k) (hl : (s.worker i).lock = .waker t sec) : WakeOk owner (sectionStep s t i k sec) i := by
  have hok := hinv.ok i
  have hout := hok.notInSection (by simp [hl])
  cases sec with
  | check =>
    by_cases hb : (s.worker i).blocked = true
    · apply h.taken (t := t) (l := .waker t .maskClear) hout hi
      · simp [sectionStep, hb]
      · simp [sectionStep, hb]
      · simp [sectionStep, hb]
      · intro _
        exact .inl ⟨t, .maskClear, by simp [sectionStep, hb], by simp, by simp⟩
    · have hb' : (s.worker i).blocked = false := by simpa using hb
      apply h.taken (t := t) (l := .waker t (.unlock false)) hout hi
      · simp [sectionStep, hb']
      · simp [sectionStep, hb']
      · simp [sectionStep, hb']
      · intro hpc
        exact (h.notified hpc hb').frame (t := t) (by simp [sectionStep, hb']) (by simp_all) (by simp [hp])
  | maskClear =>
    have hb := hok.taken t _ hl (by simp)
    apply h.taken (t := t) (l := .waker t .subSleeping) hout hi
    · simp [sectionStep, hb]
    · simp [sectionStep]
    · simp [sectionStep]
    · intro _
      exact .inl ⟨t, .subSleeping, by simp [sectionStep], by simp, by simp⟩
  | subSleeping =>
    have hb := hok.taken t _ hl (by simp)
    apply h.taken (t := t) (l := .waker t (.unlock true)) hout hi
    · simp [sectionStep, hb]
    · simp [sectionStep]
    · simp [sectionStep]
    · intro _
      exact .inl ⟨t, .unlock true, by simp [sectionStep], by simp, by simp⟩
  | unlock woken =>
    have hb := hok.taken t _ hl (by simp)
    apply h.taken (t := t) (l := .free) hout hi
    · simp [sectionStep, hb]
    · intro u hu
      exact setPost_of_ne _ hu
    · simp [sectionStep]
    · intro hpc
      cases woken with
      | true => exact .inr ⟨t, k, by simp [sectionStep]⟩
      | false =>
        have hpost : ∀ u, u ≠ t → (sectionStep s t i k (.unlock false)).post u = s.post u := by
          intro u hu
          exact setPost_of_ne _ hu
        exact (h.notified hpc hb).frame hpost (by simp_all) (by simp [hp])

/-- a wait ends, by a notification or spuriously -/
theorem wakes_wake (h : WakeOk owner s i) (hpc : (s.worker i).pc = .waiting)
    (hworker : s'.worker i = (s.worker i).goto .relock) (hpost : s'.post i = s.post i) (hlatch : s'.latch = s.latch)
    (hpend : Pending s i → Pending s' i) : WakeOk owner s' i := by
  refine ⟨?_, ?_, ?_, ?_⟩
  · intro _
    rw [hworker]
    exact h.own (by simp [hpc])
  · intro _
    rw [hpost]
    exact h.quiet (by simp [hpc])
  · rw [hworker]
    intro hw
    simp at hw
  · intro _
    rw [hworker, hlatch]
    rcases h.latch (by rw [hpc]; rfl) with hl | ⟨hl, hev | hev⟩
    · exact .inl hl
    · exact .inr ⟨hl, .inl ⟨rfl, hev.2⟩⟩
    · exact .inr ⟨hl, .inr (hpend hev)⟩

/-- what a step of thread `t`'s posting does besides the word, the mask and the injector: it moves the thread and, while
the thread is in `wake_specific_thread`, the worker it is at -/
inductive PostEffect (s s' : St) (t : ℕ) : Prop
  | alone (hw : ∀ j, (s.post t).waking j = false) (hworker : s'.worker = s.worker) (hlatch : s'.latch = s.latch)
      (hpost : ∀ u, u ≠ t → s'.post u = s.post u)
  | enters (i : ℕ) (k : Caller) (hp : s.post t = .enter i k) (hfree : (s.worker i).lock = .free)
      (hs : s' = (s.setWorker i { s.worker i with lock := .waker t .check }).setPost t (.inside i k))
  | inside (i : ℕ) (k : Caller) (sec : Section) (hp : s.post t = .inside i k) (hl : (s.worker i).lock = .waker t sec)
      (hs : s' = sectionStep s t i k sec)
  | notifies (i : ℕ) (k : Caller) (hp : s.post t = .notify i k)
      (hs : s' = (if (s.worker i).pc = .waiting then s.setWorker i ((s.worker i).goto .relock) else s).setPost t
        (k.resume true))

theorem postStep_effect (hs : postStep n s t seg = some s') : PostEffect s s' t := by
  have halone : ∀ (r : St) p, (∀ j, (s.post t).waking j = false) → r.worker = s.worker → r.latch = s.latch → r.post = s.post →
      PostEffect s (r.setPost t p) t := by
    intro r p hw hworker hlatch hpost
    exact .alone hw hworker hlatch (fun u hu => by rw [St.setPost_post, Function.update_of_ne hu, hpost])
  cases hp : s.post t with
  | none => simp [postStep, hp] at hs
  | pushing rest count wasEmpty =>
    simp only [postStep, hp] at hs
    split_ifs at hs <;> obtain rfl := Option.some.inj hs <;> exact halone _ _ (fun j => by rw [hp]; rfl) rfl rfl rfl
  | jobsLoad kind numJobs wasEmpty =>
    simp only [postStep, hp] at hs
    split_ifs at hs <;> obtain rfl := Option.some.inj hs <;> exact halone _ _ (fun j => by rw [hp]; rfl) rfl rfl rfl
  | jobsCas kind numJobs wasEmpty old =>
    simp only [postStep, hp] at hs
    split_ifs at hs <;> obtain rfl := Option.some.inj hs
    · exact halone _ _ (fun j => by rw [hp]; rfl) (by simp) (by simp) (by simp)
    · exact halone _ _ (fun j => by rw [hp]; rfl) rfl rfl rfl
  | scan f =>
    simp only [postStep, hp] at hs
    split_ifs at hs <;> obtain rfl := Option.some.inj hs <;> exact halone _ _ (fun j => by rw [hp]; rfl) rfl rfl rfl
  | bits f =>
    simp only [postStep, hp] at hs
    split_ifs at hs <;> obtain rfl := Option.some.inj hs <;> exact halone _ _ (fun j => by rw [hp]; rfl) rfl rfl rfl
  | enter i k =>
    simp only [postStep, hp] at hs
    split_ifs at hs with hc
    obtain rfl := Option.some.inj hs
    exact .enters i k hp hc.2 rfl
  | inside i k =>
    simp only [postStep, hp] at hs
    split at hs
    · rename_i t' sec hl
      split_ifs at hs with ht
      subst ht
      obtain rfl := Option.some.inj hs
      exact .inside i k sec hp hl rfl
    · cases hs
  | notify i k =>
    simp only [postStep, hp] at hs
    obtain rfl := Option.some.inj hs
    exact .notifies i k hp rfl

theorem sectionStep_worker (sec : Section) (hj : j ≠ i) : (sectionStep s t i k sec).worker j = s.worker j := by
  cases sec with
  | check =>
    unfold sectionStep
    split_ifs <;> simp [hj]
  | maskClear => simp [sectionStep, hj]
  | subSleeping => simp [sectionStep, hj]
  | unlock woken => simp [sectionStep, hj]

theorem sectionStep_latch (sec : Section) : (sectionStep s t i k sec).latch = s.latch := by
  cases sec with
  | check =>
    unfold sectionStep
    split_ifs <;> rfl
  | maskClear => simp [sectionStep]
  | subSleeping => simp [sectionStep]
  | unlock woken => simp [sectionStep]

theorem sectionStep_post (sec : Section) {u : ℕ} (hu : u ≠ t) : (sectionStep s t i k sec).post u = s.post u := by
  cases sec with
  | check =>
    unfold sectionStep
    split_ifs <;> rfl
  | maskClear => simp [sectionStep]
  | subSleeping => simp [sectionStep]
  | unlock woken => exact setPost_of_ne _ hu

theorem postStep_wake (hinv : Inv n s) (h : ∀ j, WakeOk owner s j) (hs : postStep n s t seg = some s') (j : ℕ) :
    WakeOk owner s' j := by
  have hnone : s.post t ≠ .none := by
    intro hp
    simp [postStep, hp] at hs
  have hne : (s.worker j).pc ≠ .active → j ≠ t := ne_of_posting h hnone
  cases postStep_effect hs with
  | alone hw hworker hlatch hpost =>
    refine (h j).frame hpost (congrFun hworker j) (fun _ => by rw [hlatch]) hne ?_ ?_
    · rintro ⟨k, hk | hk⟩
      · simpa [hk, Post.waking] using hw j
      · simpa [hk, Post.waking] using hw j
    · intro _ k hk
      simpa [hk, Post.waking] using hw j
  | enters i k hp hfree hs' =>
    by_cases hij : j = i
    · subst hij hs'
      exact enter_wake (h j) hne hp hfree
    · refine (h j).frame (t := t) ?_ ?_ ?_ hne ?_ ?_
      · intro u hu
        rw [hs', setPost_of_ne _ hu, St.setWorker_post]
      · simp [hs', hij]
      · simp [hs']
      · simp [Post.coming, hp, Ne.symm hij]
      · simp [hp]
  | inside i k sec hp hl hs' =>
    subst hs'
    by_cases hij : j = i
    · subst hij
      exact section_wake hinv (h j) hne hp hl
    · refine (h j).frame (t := t) (fun u hu => sectionStep_post sec hu) (sectionStep_worker sec hij)
        (fun _ => by rw [sectionStep_latch]) hne ?_ ?_
      · simp [Post.coming, hp, Ne.symm hij]
      · simp [hp]
  | notifies i k hp hs' =>
    have hcoming : ¬ (s.post t).coming j := by simp [Post.coming, hp]
    by_cases hpc : (s.worker i).pc = .waiting
    · rw [if_pos hpc] at hs'
      subst hs'
      by_cases hij : j = i
      · subst hij
        have hpost : ∀ u, u ≠ t →
            ((s.setWorker j ((s.worker j).goto .relock)).setPost t (k.resume true)).post u = s.post u := by
          intro u hu
          rw [setPost_of_ne _ hu, St.setWorker_post]
        exact wakes_wake (h j) hpc (by simp) (hpost j (hne (by simp [hpc]))) rfl
          (fun hev => hev.frame hpost (by simp) hcoming)
      · refine (h j).frame (t := t) ?_ (by simp [hij]) ?_ hne hcoming (by simp [hp, Ne.symm hij])
        · intro u hu
          rw [setPost_of_ne _ hu, St.setWorker_post]
        · simp
    · rw [if_neg hpc] at hs'
      subst hs'
      refine (h j).frame (t := t) (fun u hu => setPost_of_ne _ hu) rfl (fun _ => rfl) hne hcoming ?_
      intro hw k' hk'
      rw [hp] at hk'
      cases hk'
      exact hpc hw

/-- the other mutexes keep their holders when thread `t` moves -/
theorem HolderOk.frame (hh : HolderOk s) (hpost : ∀ u, u ≠ t → s'.post u = s.post u) (ht : ∀ k, s.post t ≠ .inside j k)
    {u : ℕ} {sec : Section} (hl : (s.worker j).lock = .waker u sec) : ∃ k, s'.post u = .inside j k := by
  obtain ⟨k, hk⟩ := hh j u sec hl
  have hut : u ≠ t := by
    intro hut
    subst hut
    exact ht k hk
  exact ⟨k, (hpost u hut).trans hk⟩

theorem sectionStep_lock {sec sec' : Section} {u : ℕ} (h : ((sectionStep s t i k sec).worker i).lock = .waker u sec') :
    u = t ∧ (sectionStep s t i k sec).post = s.post := by
  cases sec with
  | check =>
    unfold sectionStep at h ⊢
    split_ifs at h ⊢ with hb
    · simp only [St.setWorker_worker, Function.update_self, Lock.waker.injEq] at h
      exact ⟨h.1.symm, rfl⟩
    · simp only [St.setWorker_worker, Function.update_self, Lock.waker.injEq] at h
      exact ⟨h.1.symm, rfl⟩
  | maskClear =>
    simp only [sectionStep, St.setWorker_worker, Function.update_self, Lock.waker.injEq] at h
    exact ⟨h.1.symm, rfl⟩
  | subSleeping =>
    simp only [sectionStep, St.setWorker_worker, Function.update_self, Lock.waker.injEq] at h
    exact ⟨h.1.symm, by simp [sectionStep]⟩
  | unlock woken => simp [sectionStep] at h

theorem postStep_holder (hh : HolderOk s) (hs : postStep n s t seg = some s') : HolderOk s' := by
  intro j u sec hl
  cases postStep_effect hs with
  | alone hw hworker hlatch hpost =>
    rw [hworker] at hl
    apply hh.frame hpost _ hl
    intro k hk
    simpa [hk, Post.waking] using hw j
  | enters i k hp hfree hs' =>
    subst hs'
    by_cases hij : j = i
    · subst hij
      simp only [St.setPost_worker, St.setWorker_worker, Function.update_self, Lock.waker.injEq] at hl
      exact ⟨k, by rw [← hl.1, St.setPost_post, Function.update_self]⟩
    · simp only [St.setPost_worker, St.setWorker_worker, Function.update_of_ne hij] at hl
      exact hh.frame (t := t) (fun u hu => setPost_of_ne _ hu) (by simp [hp]) hl
  | inside i k sec' hp hl' hs' =>
    subst hs'
    by_cases hij : j = i
    · subst hij
      obtain ⟨hu, hpost⟩ := sectionStep_lock hl
      exact ⟨k, by rw [hpost, hu, hp]⟩
    · rw [sectionStep_worker sec' hij] at hl
      exact hh.frame (t := t) (fun u hu => sectionStep_post sec' hu) (by simp [hp, Ne.symm hij]) hl
  | notifies i k hp hs' =>
    subst hs'
    have hold : (s.worker j).lock = .waker u sec := by
      split_ifs at hl
      · by_cases hij : j = i
        · subst hij
          simpa using hl
        · simpa [hij] using hl
      · simpa using hl
    refine hh.frame (t := t) (fun u hu => ?_) (by simp [hp]) hold
    rw [setPost_of_ne _ hu]
    split_ifs <;> rfl

end Posting

/-! ## Steps -/

/-- the invariant of runs: the sleep state, where wakers are, and who will wake whom -/
structure Wakes (n : ℕ) (owner : ℕ → ℕ) (s : St) : Prop where
  inv : Inv n s
  targets : Targets n s
  outside : ∀ i, n ≤ i → s.worker i = Worker.new
  ok : ∀ j, WakeOk owner s j
  holder : HolderOk s

section Steps

variable {owner : ℕ → ℕ} {tuning : Tuning} {n t i j : ℕ} {s s' : St}

theorem Change.untouched (h : ∀ i, n ≤ i → s.worker i = Worker.new) (hc : Change n s s') :
    ∀ i, n ≤ i → s'.worker i = Worker.new := by
  intro i hi
  cases hc with
  | quiet _ _ hw => rw [hw, h i hi]
  | jec _ _ hw => rw [hw, h i hi]
  | worker j w hj hw _ _ _ _ =>
    rw [hw, Function.update_of_ne, h i hi]
    intro hij
    exact absurd (hij ▸ hj) (Nat.not_lt.2 hi)

/-- a thread that may start a posting is not in an idle loop -/
theorem Wakes.ne_of_free (h : Wakes n owner s) (hfree : free n s t) (hact : (s.worker j).pc ≠ .active) : j ≠ t := by
  intro hjt
  subst hjt
  rcases Nat.lt_or_ge j n with hlt | hge
  · exact hact (hfree.2 hlt)
  · exact hact (by rw [h.outside j hge]; rfl)

/-- thread `t` starts a posting -/
theorem Wakes.starts_ok (h : Wakes n owner s) (hfree : free n s t) (p : Post) (j : ℕ) : WakeOk owner (s.setPost t p) j :=
  (h.ok j).frame (t := t) (fun u hu => setPost_of_ne _ hu) rfl (fun _ => rfl) (h.ne_of_free hfree)
    (by simp [Post.coming, hfree.1]) (by simp [hfree.1])

theorem Wakes.starts_holder (h : Wakes n owner s) (hfree : free n s t) (p : Post) : HolderOk (s.setPost t p) := by
  intro j u sec hl
  exact h.holder.frame (t := t) (fun u hu => setPost_of_ne _ hu) (by simp [hfree.1]) hl

theorem look_ok {l : ℕ} (h : Wakes n owner s) (hi : i < n) (hown : owner l = i) (hfree : free n s i) (j : ℕ) :
    WakeOk owner ((s.setWord (wrappingAdd s.word oneInactive)).setWorker i ((s.worker i).look l)) j := by
  by_cases hij : j = i
  · subst hij
    refine ⟨?_, ?_, ?_, ?_⟩
    · simp [hown]
    · simp [hfree.1]
    · simp
    · simp [Pc.falling]
  · refine (h.ok j).frame (t := i) ?_ ?_ ?_ (h.ne_of_free hfree) ?_ ?_
    · simp
    · simp [hij]
    · simp
    · simp [Post.coming, hfree.1]
    · simp [hfree.1]

theorem spurious_ok (h : Wakes n owner s) (hpc : (s.worker i).pc = .waiting) (j : ℕ) :
    WakeOk owner (s.setWorker i ((s.worker i).goto .relock)) j := by
  by_cases hij : j = i
  · subst hij
    refine wakes_wake (h.ok j) hpc (by simp) (by simp) rfl (fun hev => ?_)
    obtain ⟨u, k, hu⟩ := hev
    exact ⟨u, k, by simpa using hu⟩
  · have hquiet := (h.ok i).quiet (by simp [hpc])
    refine (h.ok j).frame (t := i) ?_ ?_ ?_ (fun _ => hij) ?_ ?_
    · simp
    · simp [hij]
    · simp
    · simp [Post.coming, hquiet]
    · simp [hquiet]

/-- a latch is set: its worker, if it sleeps on it, gets a waker -/
theorem setLatch_ok {l : ℕ} {p : Post} (h : Wakes n owner s) (hfree : free n s t)
    (hp : s.latch l = .sleeping → p = .enter (owner l) (.latch l)) (j : ℕ) :
    WakeOk owner ((s.setLatch l .set).setPost t p) j := by
  by_cases hl : (s.worker j).latch = l ∧ (s.worker j).pc ≠ .active
  · obtain ⟨hlj, hact⟩ := hl
    have hjt := h.ne_of_free hfree hact
    have hown : owner l = j := hlj ▸ (h.ok j).own hact
    refine ⟨?_, ?_, ?_, ?_⟩
    · simpa using (h.ok j).own
    · intro _
      rw [setPost_of_ne _ hjt]
      exact (h.ok j).quiet hact
    · intro hpc hb
      exact ((h.ok j).notified hpc hb).frame (t := t) (fun u hu => setPost_of_ne _ hu) (fun _ _ hl' _ _ => hl')
        (by simp [hfree.1])
    · intro hf
      refine .inr ⟨by simp [hlj], ?_⟩
      rcases (h.ok j).latch hf with hs | ⟨-, hev | hev⟩
      · rw [hlj] at hs
        exact .inr ⟨t, .latch l, .inl (by simp [hp hs, hown])⟩
      · exact .inl hev
      · exact .inr (hev.frame (t := t) (fun u hu => setPost_of_ne _ hu) rfl (by simp [Post.coming, hfree.1]))
  · refine (h.ok j).frame (t := t) ?_ ?_ ?_ (h.ne_of_free hfree) ?_ ?_
    · intro u hu
      rw [setPost_of_ne _ hu, St.setLatch_post]
    · simp
    · intro hact
      have hne : (s.worker j).latch ≠ l := fun hlj => hl ⟨hlj, hact⟩
      simp [hne]
    · simp [Post.coming, hfree.1]
    · simp [hfree.1]

theorem step_wakes {a : Act} (h : Wakes n owner s) (hn : n ≤ threadsMax) (hs : step n tuning owner s a = some s') :
    Wakes n owner s' := by
  have hchange := step_change h.inv h.targets hs
  refine ⟨(hchange.inv hn h.inv).1, step_targets h.targets hs, hchange.untouched h.outside, ?_, ?_⟩
  · intro j
    cases a with
    | look i l =>
      simp only [step] at hs
      split_ifs at hs with hc
      obtain rfl := Option.some.inj hs
      exact look_ok h hc.1 hc.2.1 hc.2.2 j
    | idle i o =>
      simp only [step] at hs
      split_ifs at hs with hi
      exact idleStep_wake h.inv h.ok hs j
    | spurious i =>
      simp only [step] at hs
      split_ifs at hs with hc
      obtain rfl := Option.some.inj hs
      exact spurious_ok h hc.2 j
    | inject t count =>
      simp only [step] at hs
      split_ifs at hs with hc
      obtain rfl := Option.some.inj hs
      exact h.starts_ok hc _ j
    | internal t numJobs wasEmpty =>
      simp only [step] at hs
      split_ifs at hs with hc
      obtain rfl := Option.some.inj hs
      exact h.starts_ok hc _ j
    | setLatch t l =>
      simp only [step] at hs
      by_cases hc : free n s t ∧ owner l < n
      · rw [if_pos hc] at hs
        obtain rfl := Option.some.inj hs
        exact setLatch_ok h hc.1 (fun hl => if_pos hl) j
      · rw [if_neg hc] at hs
        cases hs
    | post t seg => exact postStep_wake h.inv h.ok hs j
  · cases a with
    | look i l =>
      simp only [step] at hs
      split_ifs at hs with hc
      obtain rfl := Option.some.inj hs
      intro j u sec hl
      have hold : (s.worker j).lock = .waker u sec := by
        by_cases hij : j = i
        · subst hij
          simpa using hl
        · simpa [hij] using hl
      simpa using h.holder j u sec hold
    | idle i o =>
      simp only [step] at hs
      split_ifs at hs with hi
      exact idleStep_holder h.ok h.holder hs
    | spurious i =>
      simp only [step] at hs
      split_ifs at hs with hc
      obtain rfl := Option.some.inj hs
      intro j u sec hl
      have hold : (s.worker j).lock = .waker u sec := by
        by_cases hij : j = i
        · subst hij
          simpa using hl
        · simpa [hij] using hl
      simpa using h.holder j u sec hold
    | inject t count =>
      simp only [step] at hs
      split_ifs at hs with hc
      obtain rfl := Option.some.inj hs
      exact h.starts_holder hc _
    | internal t numJobs wasEmpty =>
      simp only [step] at hs
      split_ifs at hs with hc
      obtain rfl := Option.some.inj hs
      exact h.starts_holder hc _
    | setLatch t l =>
      simp only [step] at hs
      by_cases hc : free n s t ∧ owner l < n
      · rw [if_pos hc] at hs
        obtain rfl := Option.some.inj hs
        intro j u sec hl
        exact h.starts_holder hc.1 _ j u sec hl
      · rw [if_neg hc] at hs
        cases hs
    | post t seg => exact postStep_holder h.holder hs

end Steps

/-! ## Injected jobs -/

/-- past the final check of the injector, with the flag not cleared by a waker -/
def Worker.asleep (w : Worker) : Bool :=
  match w.pc with
  | .setBlocked => true
  | .waitLoop | .waiting | .relock => w.blocked
  | _ => false

theorem WorkerOk.counted_of_asleep {w : Worker} (h : w.asleep = true) : w.counted = true := by
  cases hpc : w.pc <;> simp_all [Worker.asleep, Worker.counted, Worker.claimed, Pc.committed, Pc.parked]

theorem WorkerOk.marked_of_asleep {w : Worker} (hok : WorkerOk w) (h : w.asleep = true) : w.marked = true := by
  by_cases hs : w.pc = .setBlocked
  · rw [Worker.marked_of_self (hok.self.2 (by rw [hs]; rfl)), hs]
    simp [Pc.masked]
  · have hb : w.blocked = true := by
      cases hpc : w.pc <;> simp_all [Worker.asleep]
    unfold Worker.marked
    split
    · rfl
    · rename_i t hl
      exact absurd ((hok.taken t _ hl (by simp)).symm.trans hb) Bool.false_ne_true
    · simp [hb]

/-- a wake cascade for injected jobs that has not woken anyone -/
def Scan.fresh (f : Scan) : Prop := f.kind = .injected ∧ f.woken = 0 ∧ 0 < f.target

/-- a poster of injected jobs that will wake a worker if all are asleep -/
def Post.duty (n : ℕ) : Post → Prop
  | .pushing rest count _ => rest < count ∧ count % u32Range ≠ 0
  | .jobsLoad kind numJobs _ => kind = .injected ∧ numJobs ≠ 0
  | .jobsCas kind numJobs _ _ => kind = .injected ∧ numJobs ≠ 0
  | .scan f => f.fresh ∧ f.word = 0
  | .bits f => f.fresh ∧ f.bits ≠ 0#64 ∧ ∀ b < 64, f.bits.getLsbD b = true → f.word * bitsPerWord + b < n
  | .enter i (.scan f) => f.fresh ∧ i < n
  | .inside i (.scan f) => f.fresh ∧ i < n
  | _ => False

theorem Post.notifying_of_duty {n : ℕ} {p : Post} (h : p.duty n) : p.notifying = true := by
  unfold Post.duty at h
  split at h <;> simp_all [Post.notifying, Caller.forInjected, Scan.fresh]

/-- a nonempty injector over sleeping workers has a poster on duty -/
def JobsOk (n : ℕ) (s : St) : Prop := 0 < s.injected → (∀ i < n, (s.worker i).asleep = true) → ∃ t, (s.post t).duty n

/-- the batches being pushed report a nonzero number of jobs -/
def Batches (s : St) : Prop :=
  ∀ t rest count wasEmpty, s.post t = .pushing rest count wasEmpty → rest ≤ count ∧ (count % u32Range = 0 → count = 0)

section Jobs

variable {owner : ℕ → ℕ} {tuning : Tuning} {n t i j seg : ℕ} {s s' : St} {o : Found}

/-- with every worker asleep the counter word shows `n` inactive and `n` sleeping threads -/
theorem Inv.word_asleep (h : Inv n s) (hall : ∀ i < n, (s.worker i).asleep = true) :
    ∃ jec < jecRange, s.word = pack jec n n := by
  obtain ⟨jec, hjec, hword⟩ := h.word
  refine ⟨jec, hjec, ?_⟩
  rw [hword, tally_eq_of_forall fun i hi => WorkerOk.counted_of_asleep (hall i hi),
    tally_eq_of_forall fun i hi => (h.ok i).idle_of_counted (WorkerOk.counted_of_asleep (hall i hi))]

/-- such a word has `new_jobs` wake at least one thread, whatever it thinks of the queue -/
theorem numToWake_pos {jec numJobs : ℕ} {wasEmpty : Bool} (hn : 0 < n) (hmax : n ≤ threadsMax) (hj : numJobs ≠ 0) :
    numToWake numJobs wasEmpty (pack jec n n) ≠ 0 := by
  have hsmall : n % u32Range = n := Nat.mod_eq_of_lt (lt_of_le_of_lt hmax (by decide))
  simp only [numToWake, awakeButIdleThreads_pack hmax le_rfl, sleepingThreads_pack hmax, hsmall, Nat.sub_self, Nat.zero_mod]
  rw [if_neg (Nat.pos_iff_ne_zero.1 hn)]
  cases wasEmpty with
  | false =>
    simp only [if_true]
    omega
  | true =>
    simp only [Bool.true_eq_false, if_false]
    rw [if_pos (Nat.pos_iff_ne_zero.2 hj)]
    omega

theorem startScan_duty {target : ℕ} (h : target ≠ 0) : (startScan .injected target).duty n := by
  rw [startScan, if_neg h]
  exact ⟨⟨rfl, rfl, Nat.pos_iff_ne_zero.2 h⟩, rfl⟩

/-- an idle step that ends asleep with jobs in the injector began asleep -/
theorem idleStep_asleep (hs : idleStep tuning s i o = some s') (ha : (s'.worker i).asleep = true) (hq : 0 < s'.injected) :
    (s.worker i).asleep = true ∧ s'.injected = s.injected ∧ s'.post = s.post := by
  cases hpc : (s.worker i).pc with
  | active | waiting => simp [idleStep, hpc] at hs
  | setBlocked =>
    simp only [idleStep, hpc] at hs
    obtain rfl := Option.some.inj hs
    exact ⟨by simp [Worker.asleep, hpc], rfl, rfl⟩
  | waitLoop =>
    simp only [idleStep, hpc] at hs
    split_ifs at hs with hb <;> obtain rfl := Option.some.inj hs
    · exact ⟨by simp [Worker.asleep, hpc, hb], rfl, rfl⟩
    · simp [Worker.asleep] at ha
  | relock =>
    simp only [idleStep, hpc] at hs
    split_ifs at hs
    obtain rfl := Option.some.inj hs
    exact ⟨by simpa [Worker.asleep, hpc] using ha, rfl, rfl⟩
  | finalCheck =>
    simp only [idleStep, hpc] at hs
    obtain rfl := Option.some.inj hs
    rw [St.setWorker_injected] at hq
    rw [if_pos hq] at ha
    simp [Worker.asleep] at ha
  | find =>
    simp only [idleStep, hpc] at hs
    cases o with
    | none | elsewhere =>
      obtain rfl := Option.some.inj hs
      simp [Worker.asleep] at ha
    | injected =>
      simp only at hs
      split_ifs at hs
      obtain rfl := Option.some.inj hs
      simp [Worker.asleep] at ha
  | probe | wakeUp =>
    simp only [idleStep, hpc] at hs
    obtain rfl := Option.some.inj hs
    rw [St.setWorker_worker, Function.update_self] at ha
    unfold Worker.asleep at ha
    rw [Worker.goto_pc] at ha
    split_ifs at ha
  | noWork | announceLoad | announceCas _ | getSleepy | lock | fallAsleep | load | commit _ | wakeUpCas =>
    simp only [idleStep, hpc] at hs
    split_ifs at hs <;> obtain rfl := Option.some.inj hs <;> simp [Worker.asleep] at ha
  | maskSet | retract | maskClear | unlock | workFound =>
    simp only [idleStep, hpc] at hs
    obtain rfl := Option.some.inj hs
    simp [Worker.asleep] at ha

theorem sectionStep_asleep {sec : Section} {k : Caller} (ha : ((sectionStep s t i k sec).worker i).asleep = true) :
    (s.worker i).asleep = true := by
  cases sec with
  | check =>
    unfold sectionStep at ha
    split_ifs at ha with hb
    · cases hpc : (s.worker i).pc <;> simp_all [Worker.asleep]
    · simpa [Worker.asleep] using ha
  | maskClear => simpa [sectionStep, Worker.asleep] using ha
  | subSleeping => simpa [sectionStep, Worker.asleep] using ha
  | unlock woken => simpa [sectionStep, Worker.asleep] using ha

theorem postStep_others (hs : postStep n s t seg = some s') {u : ℕ} (hu : u ≠ t) : s'.post u = s.post u := by
  cases postStep_effect hs with
  | alone _ _ _ hpost => exact hpost u hu
  | enters i k _ _ hs' => rw [hs', setPost_of_ne _ hu, St.setWorker_post]
  | inside i k sec _ _ hs' => rw [hs', sectionStep_post sec hu]
  | notifies i k _ hs' =>
    rw [hs', setPost_of_ne _ hu]
    split_ifs <;> rfl

/-- a posting puts nobody to sleep -/
theorem postStep_asleep (hs : postStep n s t seg = some s') (ha : (s'.worker j).asleep = true) :
    (s.worker j).asleep = true := by
  cases postStep_effect hs with
  | alone _ hworker _ _ => rwa [hworker] at ha
  | enters i k hp hfree hs' =>
    subst hs'
    by_cases hij : j = i
    · subst hij
      simpa [Worker.asleep] using ha
    · simpa [hij] using ha
  | inside i k sec hp hl hs' =>
    subst hs'
    by_cases hij : j = i
    · subst hij
      exact sectionStep_asleep ha
    · rwa [sectionStep_worker sec hij] at ha
  | notifies i k hp hs' =>
    subst hs'
    split_ifs at ha with hpc
    · by_cases hij : j = i
      · subst hij
        simpa [Worker.asleep, hpc] using ha
      · simpa [hij] using ha
    · simpa using ha

/-- the injector grows only by a push, which leaves its poster on duty -/
theorem postStep_injected (hb : Batches s) (hs : postStep n s t seg = some s') :
    s'.injected = s.injected ∨ (s'.post t).duty n := by
  cases hp : s.post t with
  | none => simp [postStep, hp] at hs
  | pushing rest count wasEmpty =>
    simp only [postStep, hp] at hs
    split_ifs at hs with hr hseg <;> obtain rfl := Option.some.inj hs
    · exact .inl rfl
    · exact .inl rfl
    · obtain ⟨hle, hcount⟩ := hb t rest count wasEmpty hp
      refine .inr ?_
      rw [St.setPost_post, Function.update_self]
      refine ⟨by omega, fun hz => ?_⟩
      have := hcount hz
      omega
  | jobsLoad kind numJobs wasEmpty =>
    simp only [postStep, hp] at hs
    split_ifs at hs <;> obtain rfl := Option.some.inj hs <;> exact .inl rfl
  | jobsCas kind numJobs wasEmpty old =>
    simp only [postStep, hp] at hs
    split_ifs at hs <;> obtain rfl := Option.some.inj hs <;> exact .inl (by simp)
  | scan f =>
    simp only [postStep, hp] at hs
    split_ifs at hs <;> obtain rfl := Option.some.inj hs <;> exact .inl rfl
  | bits f =>
    simp only [postStep, hp] at hs
    split_ifs at hs <;> obtain rfl := Option.some.inj hs <;> exact .inl rfl
  | enter i k =>
    simp only [postStep, hp] at hs
    split_ifs at hs
    obtain rfl := Option.some.inj hs
    exact .inl rfl
  | inside i k =>
    simp only [postStep, hp] at hs
    split at hs
    · rename_i sec _
      split_ifs at hs
      obtain rfl := Option.some.inj hs
      refine .inl ?_
      cases sec with
      | check =>
        unfold sectionStep
        split_ifs <;> rfl
      | maskClear => simp [sectionStep]
      | subSleeping => simp [sectionStep]
      | unlock woken => simp [sectionStep]
    · cases hs
  | notify i k =>
    simp only [postStep, hp] at hs
    obtain rfl := Option.some.inj hs
    refine .inl ?_
    rw [St.setPost_injected]
    split_ifs <;> rfl

/-- the first word of the mask shows a sleeping worker -/
theorem Wakes.word_zero (h : Wakes n owner s) (hn : 0 < n) (hall : ∀ i < n, (s.worker i).asleep = true) :
    s.mask 0 ≠ 0#64 := by
  have hbit : s.mask.bit 0 = true := by
    rw [h.inv.bit 0]
    exact (h.inv.ok 0).marked_of_asleep (hall 0 hn)
  exact SleepMask.word_ne_zero hbit

/-- the first word of the mask shows workers of the pool only -/
theorem Wakes.bit_lt (h : Wakes n owner s) {b : ℕ} (hb : b < 64) (hbit : (s.mask 0).getLsbD b = true) : b < n := by
  by_contra hge
  have hmarked : s.mask.bit b = true := by
    simp only [SleepMask.bit, wordOf, bitsPerWord, Nat.div_eq_of_lt hb, Nat.mod_eq_of_lt hb]
    exact hbit
  rw [h.inv.bit b, h.outside b (Nat.not_lt.1 hge)] at hmarked
  exact absurd hmarked (by decide)

/-- a waker in the critical section of a sleeping worker is at its look at the flag, and wakes it -/
theorem sectionStep_wakes {sec : Section} {k : Caller} {u : ℕ} (hok : WorkerOk (s.worker i))
    (hl : (s.worker i).lock = .waker u sec) (ha : (s.worker i).asleep = true) :
    ((sectionStep s t i k sec).worker i).asleep = false := by
  have hne : (s.worker i).pc ≠ .setBlocked := by
    intro hpc
    have hself := hok.self.2 (by rw [hpc]; rfl)
    rw [hself] at hl
    cases hl
  have hb : (s.worker i).blocked = true := by
    cases hpc : (s.worker i).pc <;> simp_all [Worker.asleep]
  by_cases hsec : sec = .check
  · subst hsec
    cases hpc : (s.worker i).pc <;> simp_all [sectionStep, Worker.asleep]
  · exact absurd ((hok.taken u sec hl hsec).symm.trans hb) Bool.false_ne_true

/-- a poster on duty stays on duty as long as every worker is asleep -/
theorem postStep_duty (h : Wakes n owner s) (hn : 0 < n) (hmax : n ≤ threadsMax) (hd : (s.post t).duty n)
    (hs : postStep n s t seg = some s') (hall : ∀ i < n, (s.worker i).asleep = true)
    (hall' : ∀ i < n, (s'.worker i).asleep = true) : (s'.post t).duty n := by
  obtain ⟨jec, hjec, hword⟩ := h.inv.word_asleep hall
  have hupd : ∀ (r : St) p, (r.setPost t p).post t = p := by
    intro r p
    rw [St.setPost_post, Function.update_self]
  cases hp : s.post t with
  | none => simp [hp, Post.duty] at hd
  | pushing rest count wasEmpty =>
    rw [hp] at hd
    simp only [postStep, hp] at hs
    split_ifs at hs with hr hseg <;> obtain rfl := Option.some.inj hs
    · rw [hupd]
      exact ⟨rfl, hd.2⟩
    · exact absurd hd.1 (by omega)
    · rw [hupd]
      exact ⟨lt_of_le_of_lt (Nat.sub_le _ _) hd.1, hd.2⟩
  | jobsLoad kind numJobs wasEmpty =>
    rw [hp] at hd
    obtain ⟨rfl, hnum⟩ := hd
    simp only [postStep, hp] at hs
    split_ifs at hs <;> obtain rfl := Option.some.inj hs
    · rw [hupd]
      exact ⟨rfl, hnum⟩
    · rw [hupd, hword]
      exact startScan_duty (numToWake_pos hn hmax hnum)
  | jobsCas kind numJobs wasEmpty old =>
    rw [hp] at hd
    obtain ⟨rfl, hnum⟩ := hd
    simp only [postStep, hp] at hs
    split_ifs at hs with hold <;> obtain rfl := Option.some.inj hs
    · rw [hupd, ← hold, hword, pack_add_jec hmax hmax]
      exact startScan_duty (numToWake_pos hn hmax hnum)
    · rw [hupd]
      exact ⟨rfl, hnum⟩
  | scan f =>
    rw [hp] at hd
    obtain ⟨hfresh, hzero⟩ := hd
    have hwords : f.word < SleepMask.nWords n := by
      rw [hzero]
      exact Nat.div_pos (by simp only [bitsPerWord]; omega) (by decide)
    simp only [postStep, hp, if_pos hwords] at hs
    obtain rfl := Option.some.inj hs
    rw [hupd, hzero]
    exact ⟨hfresh, h.word_zero hn hall, fun b hb hbit => by simpa [hzero] using h.bit_lt hb hbit⟩
  | bits f =>
    rw [hp] at hd
    obtain ⟨hfresh, hbits, hrange⟩ := hd
    simp only [postStep, hp, if_neg hbits] at hs
    obtain rfl := Option.some.inj hs
    rw [hupd]
    obtain ⟨hb, hbit⟩ := trailingZeros_spec hbits
    exact ⟨hfresh, hrange _ hb hbit⟩
  | enter i k =>
    simp only [postStep, hp] at hs
    split_ifs at hs
    obtain rfl := Option.some.inj hs
    rw [hupd]
    cases k with
    | latch l => simp [hp, Post.duty] at hd
    | scan f =>
      rw [hp] at hd
      exact hd
  | inside i k =>
    -- the flag is still set, so this is the waker's look at it, which clears it
    have hi : i < n := h.targets t i k (.inl hp)
    simp only [postStep, hp] at hs
    split at hs
    · rename_i t' sec hl
      split_ifs at hs with ht
      obtain rfl := Option.some.inj hs
      exact absurd (hall' i hi) (by simp [sectionStep_wakes (h.inv.ok i) hl (hall i hi)])
    · cases hs
  | notify i k => simp [hp, Post.duty] at hd

/-- an injection that reports a nonzero number of jobs: its count does not vanish as a `u32` -/
def Act.reports : Act → Prop
  | .inject _ count => count % u32Range = 0 → count = 0
  | _ => True

/-- only an injection starts a batch, and pushing only shortens it -/
theorem step_batches {a : Act} (h : Batches s) (ha : a.reports) (hs : step n tuning owner s a = some s') : Batches s' := by
  apply step_posts (P := fun p => ∀ rest count wasEmpty, p = .pushing rest count wasEmpty →
    rest ≤ count ∧ (count % u32Range = 0 → count = 0)) _ h _ hs
  · constructor
    case pushing =>
      intro rest count wasEmpty seg hb r c e hp
      cases hp
      obtain ⟨hle, hcount⟩ := hb rest count wasEmpty rfl
      exact ⟨(Nat.sub_le _ _).trans hle, hcount⟩
    all_goals simp
  · intro t count wasEmpty heq r c e hp
    subst heq
    cases hp
    exact ⟨le_rfl, ha⟩

/-- thread `t` starts a posting: the poster on duty is another -/
theorem JobsOk.starts {p : Post} (h : JobsOk n s) (hfree : free n s t) (hinj : s'.injected = s.injected)
    (hworker : s'.worker = s.worker) (hpost : s'.post = Function.update s.post t p) : JobsOk n s' := by
  intro hq hall
  rw [hinj] at hq
  rw [hworker] at hall
  obtain ⟨u, hu⟩ := h hq hall
  have hut : u ≠ t := by
    intro hut
    subst hut
    rw [hfree.1] at hu
    exact hu
  exact ⟨u, by rwa [hpost, Function.update_of_ne hut]⟩

theorem step_jobs {a : Act} (h : Wakes n owner s) (hn : 0 < n) (hmax : n ≤ threadsMax) (hb : Batches s) (hj : JobsOk n s)
    (hs : step n tuning owner s a = some s') : JobsOk n s' := by
  cases a with
  | look i l =>
    simp only [step] at hs
    split_ifs at hs with hc
    obtain rfl := Option.some.inj hs
    intro _ hall
    exact absurd (hall i hc.1) (by simp [Worker.asleep])
  | idle i o =>
    simp only [step] at hs
    split_ifs at hs with hi
    obtain ⟨w, hworker, -, -⟩ := (idleStep_frame hs).worker
    intro hq hall
    obtain ⟨hai, hinj, hpost⟩ := idleStep_asleep hs (hall i hi) hq
    have hall₀ : ∀ j < n, (s.worker j).asleep = true := by
      intro j hjn
      by_cases hij : j = i
      · rw [hij]
        exact hai
      · have hsame := hall j hjn
        rwa [hworker, Function.update_of_ne hij] at hsame
    obtain ⟨u, hu⟩ := hj (hinj ▸ hq) hall₀
    exact ⟨u, by rwa [hpost]⟩
  | spurious i =>
    simp only [step] at hs
    split_ifs at hs with hc
    obtain rfl := Option.some.inj hs
    intro hq hall
    apply hj hq
    intro j hjn
    have hsame := hall j hjn
    by_cases hij : j = i
    · subst hij
      simpa [Worker.asleep, hc.2] using hsame
    · simpa [hij] using hsame
  | inject t count =>
    simp only [step] at hs
    split_ifs at hs with hc
    obtain rfl := Option.some.inj hs
    exact hj.starts hc rfl rfl rfl
  | internal t numJobs wasEmpty =>
    simp only [step] at hs
    split_ifs at hs with hc
    obtain rfl := Option.some.inj hs
    exact hj.starts hc rfl rfl rfl
  | setLatch t l =>
    simp only [step] at hs
    by_cases hc : free n s t ∧ owner l < n
    · rw [if_pos hc] at hs
      obtain rfl := Option.some.inj hs
      exact hj.starts hc.1 rfl rfl rfl
    · rw [if_neg hc] at hs
      cases hs
  | post t seg =>
    intro hq hall
    have hall₀ : ∀ j < n, (s.worker j).asleep = true := fun j hjn => postStep_asleep hs (hall j hjn)
    rcases postStep_injected (n := n) hb hs with hinj | hd
    · obtain ⟨u, hu⟩ := hj (hinj ▸ hq) hall₀
      by_cases hut : u = t
      · subst hut
        exact ⟨u, postStep_duty h hn hmax hu hs hall₀ hall⟩
      · exact ⟨u, by rwa [postStep_others hs hut]⟩
    · exact ⟨t, hd⟩

end Jobs

/-! ## Runs -/

theorem init_wakes (n : ℕ) (owner : ℕ → ℕ) : Wakes n owner init := by
  refine ⟨init_inv n, ?_, fun _ _ => rfl, fun j => ⟨?_, ?_, ?_, ?_⟩, ?_⟩
  · intro t j k ht
    simp [init] at ht
  · simp [init, Worker.new]
  · simp [init]
  · simp [init, Worker.new]
  · simp [init, Worker.new, Pc.falling]
  · intro i t sec hl
    simp [init, Worker.new] at hl

theorem run_wakes {n : ℕ} {tuning : Tuning} {owner : ℕ → ℕ} (hn : 0 < n) (hmax : n ≤ threadsMax) {acts : List Act}
    {s s' : St} (h : Wakes n owner s) (hb : Batches s) (hj : JobsOk n s) (hacts : ∀ a ∈ acts, a.reports)
    (hrun : run n tuning owner s acts = some s') : Wakes n owner s' ∧ JobsOk n s' := by
  have hall : Wakes n owner s' ∧ Batches s' ∧ JobsOk n s' := by
    refine Machine.run_keeps (P := fun s => Wakes n owner s ∧ Batches s ∧ JobsOk n s) (fun ha hi hs => ?_) ⟨h, hb, hj⟩ hrun
    obtain ⟨hw, hb, hj⟩ := hi
    exact ⟨step_wakes hw hmax hs, step_batches hb (hacts _ ha) hs, step_jobs hw hn hmax hb hj hs⟩
  exact ⟨hall.1, hall.2.2⟩

/-- a cleared flag means that a waker is on its way -/
theorem Wakes.waking_of_cleared {n i : ℕ} {owner : ℕ → ℕ} {s : St} (h : Wakes n owner s) (hpc : (s.worker i).pc = .waiting)
    (hb : (s.worker i).blocked = false) : ∃ t, (s.post t).waking i = true := by
  rcases (h.ok i).notified hpc hb with ⟨t, sec, hl, -, -⟩ | ⟨t, k, ht⟩
  · obtain ⟨k, hk⟩ := h.holder i t sec hl
    exact ⟨t, by simp [hk, Post.waking]⟩
  · exact ⟨t, by simp [ht, Post.waking]⟩

section Pushes

variable {n t count : ℕ} {tuning : Tuning} {owner : ℕ → ℕ} {s : St}

theorem run_cons {a : Act} {acts : List Act} {s₁ : St} (h : step n tuning owner s a = some s₁) :
    run n tuning owner s (a :: acts) = run n tuning owner s₁ acts := by
  rw [run, List.foldlM_cons, h, Option.bind_eq_bind, Option.bind_some, run]

theorem run_append {acts acts' : List Act} {s₁ : St} (h : run n tuning owner s acts = some s₁) :
    run n tuning owner s (acts ++ acts') = run n tuning owner s₁ acts' := by
  rw [run] at h
  rw [run, List.foldlM_append, h, Option.bind_eq_bind, Option.bind_some, run]

/-- a batch pushed job by job -/
theorem run_pushes {k : ℕ} {wasEmpty : Bool} (hp : s.post t = .pushing k count wasEmpty) :
    ∃ s', run n tuning owner s (List.replicate k (.post t 1)) = some s' ∧ s'.injected = s.injected + k ∧
      s'.word = s.word ∧ s'.worker = s.worker ∧ s'.post = Function.update s.post t (.pushing 0 count wasEmpty) := by
  induction k generalizing s with
  | zero =>
    refine ⟨s, rfl, rfl, rfl, rfl, ?_⟩
    rw [← hp, Function.update_eq_self]
  | succ k ih =>
    have hstep : step n tuning owner s (.post t 1) =
        some ((s.setInjected (s.injected + 1)).setPost t (.pushing k count wasEmpty)) := by
      simp [step, postStep, hp]
    obtain ⟨s', hrun, hinj, hword, hworker, hpost⟩ :=
      ih (s := (s.setInjected (s.injected + 1)).setPost t (.pushing k count wasEmpty)) (by simp)
    refine ⟨s', ?_, ?_, hword, hworker, ?_⟩
    · rw [List.replicate_succ, run_cons hstep, hrun]
    · rw [hinj, St.setPost_injected, St.setInjected_injected, Nat.add_assoc, Nat.add_comm 1 k]
    · rw [hpost, St.setPost_post, Function.update_idem, St.setInjected_post]

/-- a batch pushed into an empty injector, up to its notification -/
theorem run_inject (hfree : free n s t) (hempty : s.injected = 0) :
    ∃ s', run n tuning owner s (.inject t count :: List.replicate count (.post t 1)) = some s' ∧ s'.injected = count ∧
      s'.word = s.word ∧ s'.worker = s.worker ∧ s'.post = Function.update s.post t (.pushing 0 count true) := by
  have hinject : step n tuning owner s (.inject t count) = some (s.setPost t (.pushing count count true)) := by
    simp [step, hfree, hempty]
  generalize hs₁ : s.setPost t (.pushing count count true) = s₁ at hinject
  obtain ⟨s₂, hrun, hinj, hword, hworker, hpost⟩ :=
    @run_pushes n t count tuning owner s₁ count true (by simp [← hs₁])
  refine ⟨s₂, ?_, ?_, ?_, ?_, ?_⟩
  · rw [run_cons hinject, hrun]
  · rw [hinj, ← hs₁, St.setPost_injected, hempty, Nat.zero_add]
  · rw [hword, ← hs₁, St.setPost_word]
  · rw [hworker, ← hs₁, St.setPost_worker]
  · rw [hpost, ← hs₁, St.setPost_post, Function.update_idem]

end Pushes

/-- the only worker of a pool parks over an empty injector, with the jobs event counter even -/
theorem run_park :
    ∃ s, run 1 ⟨0, 0⟩ (fun _ => 0) init (park 0 0) = some s ∧ s.post = (fun _ => .none) ∧ s.injected = 0 ∧
      isSleepy (jobsCounter s.word) = true ∧ (s.worker 0).pc = .waiting ∧ (s.worker 0).blocked = true :=
  ⟨_, rfl, rfl, rfl, rfl, rfl, rfl⟩

/-- **no lost wake-up**: in every run whose injections report a nonzero number of jobs,
- a nonempty injector with every worker parked has a poster between its push and the end of its notification (also when
  parked includes workers whose flag a waker has cleared and that it has still to notify);
- a worker in `condvar.wait` whose latch is set has a wake in progress. -/
theorem no_lost_wake {n : ℕ} {tuning : Tuning} {owner : ℕ → ℕ} (hn : 0 < n) (hmax : n ≤ threadsMax) {acts : List Act}
    {s : St} (hacts : ∀ a ∈ acts, a.reports) (hrun : run n tuning owner init acts = some s) :
    ¬ (0 < s.injected ∧ (∀ i < n, (s.worker i).pc = .waiting ∧ (s.worker i).blocked = true) ∧
      ∀ t, (s.post t).notifying = false) ∧
    ¬ (0 < s.injected ∧ (∀ i < n, (s.worker i).pc = .waiting) ∧ (∀ t, (s.post t).notifying = false) ∧
      ∀ i < n, ∀ t, (s.post t).waking i = false) ∧
    ∀ i < n, ¬ (s.latch (s.worker i).latch = .set ∧ (s.worker i).pc = .waiting ∧ ∀ t, (s.post t).waking i = false) := by
  have hb : Batches init := by
    intro t rest count wasEmpty ht
    simp [init] at ht
  have hj : JobsOk n init := by
    intro hq
    simp [init] at hq
  obtain ⟨h, hjobs⟩ := run_wakes hn hmax (init_wakes n owner) hb hj hacts hrun
  have hfirst : ¬ (0 < s.injected ∧ (∀ i < n, (s.worker i).pc = .waiting ∧ (s.worker i).blocked = true) ∧
      ∀ t, (s.post t).notifying = false) := by
    rintro ⟨hq, hall, hno⟩
    obtain ⟨t, ht⟩ := hjobs hq (fun i hi => by simp [Worker.asleep, hall i hi])
    exact absurd (Post.notifying_of_duty ht) (by simp [hno t])
  refine ⟨hfirst, ?_, ?_⟩
  · rintro ⟨hq, hall, hno, hwake⟩
    refine hfirst ⟨hq, fun i hi => ⟨hall i hi, ?_⟩, hno⟩
    by_contra hflag
    obtain ⟨t, ht⟩ := h.waking_of_cleared (hall i hi) (by simpa using hflag)
    exact absurd ht (by simp [hwake i hi t])
  · rintro i hi ⟨hset, hpc, hwake⟩
    have hev : ∃ t, (s.post t).waking i = true := by
      rcases (h.ok i).latch (by rw [hpc]; rfl) with hl | ⟨-, hev | ⟨t, k, ht | ht⟩⟩
      · rw [hset] at hl
        cases hl
      · exact h.waking_of_cleared hpc hev.2
      · exact ⟨t, by simp [ht, Post.waking]⟩
      · exact ⟨t, by simp [ht.1, Post.waking]⟩
    obtain ⟨t, ht⟩ := hev
    exact absurd ht (by simp [hwake t])

/-- a poster between its push and its notification, over one parked worker -/
theorem no_lost_wake_pushed :
    ∃ s, run 1 ⟨0, 0⟩ (fun _ => 0) init (park 0 0 ++ [.inject 1 1, .post 1 1]) = some s ∧ s.injected = 1 ∧
      ((s.worker 0).pc = .waiting ∧ (s.worker 0).blocked = true) ∧ ¬ ∀ t, (s.post t).notifying = false := by
  obtain ⟨s₁, hpark, hpost, hempty, -, hwait⟩ := run_park
  obtain ⟨s, hinject, hq, -, hworker, -⟩ := @run_inject 1 1 1 ⟨0, 0⟩ (fun _ => 0) s₁ ⟨by rw [hpost], by simp⟩ hempty
  have hs : run 1 ⟨0, 0⟩ (fun _ => 0) init (park 0 0 ++ [.inject 1 1, .post 1 1]) = some s :=
    (run_append hpark).trans hinject
  have hparked : (s.worker 0).pc = .waiting ∧ (s.worker 0).blocked = true := by
    rw [hworker]
    exact hwait
  have hreports : ∀ a ∈ park 0 0 ++ [.inject 1 1, .post 1 1], a.reports := by
    simp [park, Act.reports, u32Range]
  refine ⟨s, hs, hq, hparked, fun hno => ?_⟩
  refine (no_lost_wake (by decide) (by decide) hreports hs).1 ⟨by simp [hq], fun i hi => ?_, hno⟩
  rw [Nat.lt_one_iff.1 hi]
  exact hparked

/-! ## A batch that reports no jobs -/

section Batch

variable {n t count : ℕ} {tuning : Tuning} {owner : ℕ → ℕ} {s : St}

/-- no jobs reported on an empty queue wake nobody -/
theorem numToWake_zero (counters : ℕ) : numToWake 0 true counters = 0 := by
  simp [numToWake]

/-- a batch of `count` jobs, pushed one by one, and its notification -/
def wholeBatch (t count : ℕ) : List Act :=
  .inject t count :: (List.replicate count (.post t 1) ++ List.replicate 3 (.post t 0))

theorem step_unreported (hcount : 0 < count) (hzero : count % u32Range = 0) (hp : s.post t = .pushing 0 count true) :
    step n tuning owner s (.post t 0) = some (s.setPost t (.jobsLoad .injected 0 true)) := by
  simp only [step, postStep, hp, if_pos hcount, hzero, if_true]

theorem step_jobsLoad (hjec : isSleepy (jobsCounter s.word) = true) (hp : s.post t = .jobsLoad .injected 0 true) :
    step n tuning owner s (.post t 0) = some (s.setPost t (.jobsCas .injected 0 true s.word)) := by
  simp only [step, postStep, hp, hjec, if_true]

theorem step_jobsCas (hp : s.post t = .jobsCas .injected 0 true s.word) :
    step n tuning owner s (.post t 0) = some ((s.setWord (wrappingAdd s.word oneJec)).setPost t .none) := by
  simp only [step, postStep, hp, if_true, numToWake_zero, startScan]

/-- the notification of a batch that reports no jobs, with the jobs event counter even -/
theorem run_unreported (hcount : 0 < count) (hzero : count % u32Range = 0) (hp : s.post t = .pushing 0 count true)
    (hjec : isSleepy (jobsCounter s.word) = true) :
    ∃ s', run n tuning owner s (List.replicate 3 (.post t 0)) = some s' ∧ s'.injected = s.injected ∧
      s'.worker = s.worker ∧ s'.post = Function.update s.post t .none := by
  have h1 : step n tuning owner s (.post t 0) = some (s.setPost t (.jobsLoad .injected 0 true)) :=
    step_unreported hcount hzero hp
  generalize hs₁ : s.setPost t (.jobsLoad .injected 0 true) = s₁ at h1
  have h2 : step n tuning owner s₁ (.post t 0) = some (s₁.setPost t (.jobsCas .injected 0 true s₁.word)) :=
    step_jobsLoad (by rw [← hs₁]; exact hjec) (by simp [← hs₁])
  generalize hs₂ : s₁.setPost t (.jobsCas .injected 0 true s₁.word) = s₂ at h2
  have h3 : step n tuning owner s₂ (.post t 0) = some ((s₂.setWord (wrappingAdd s₂.word oneJec)).setPost t .none) :=
    step_jobsCas (by simp [← hs₂])
  refine ⟨_, (run_cons h1).trans ((run_cons h2).trans (run_cons h3)), ?_, ?_, ?_⟩
  · simp [← hs₂, ← hs₁]
  · simp [← hs₂, ← hs₁]
  · simp [← hs₂, ← hs₁]

/-- a batch whose count vanishes as a `u32` ends with its jobs in the injector and no worker touched -/
theorem run_wholeBatch (hcount : 0 < count) (hzero : count % u32Range = 0) (hfree : free n s t) (hempty : s.injected = 0)
    (hjec : isSleepy (jobsCounter s.word) = true) :
    ∃ s', run n tuning owner s (wholeBatch t count) = some s' ∧ s'.injected = count ∧ s'.worker = s.worker ∧
      s'.post = s.post := by
  obtain ⟨s₁, hrun₁, hinj₁, hword₁, hworker₁, hpost₁⟩ := @run_inject n t count tuning owner s hfree hempty
  obtain ⟨s₂, hrun₂, hinj₂, hworker₂, hpost₂⟩ :=
    @run_unreported n t count tuning owner s₁ hcount hzero (by rw [hpost₁, Function.update_self])
      (by rw [hword₁]; exact hjec)
  refine ⟨s₂, ?_, ?_, ?_, ?_⟩
  · rw [wholeBatch, ← List.cons_append, run_append hrun₁, hrun₂]
  · rw [hinj₂, hinj₁]
  · rw [hworker₂, hworker₁]
  · rw [hpost₂, hpost₁, Function.update_idem, ← hfree.1, Function.update_eq_self]

end Batch

/-- worker 0 parks; a thread outside the pool injects 2^32 jobs and runs their notification to its end -/
theorem batch_lost :
    ∃ s, run 1 ⟨0, 0⟩ (fun _ => 0) init (park 0 0 ++ wholeBatch 1 (2 ^ 32)) = some s ∧ s.injected = 2 ^ 32 ∧
      (∀ i < 1, (s.worker i).pc = .waiting ∧ (s.worker i).blocked = true) ∧ ∀ t, (s.post t).notifying = false := by
  obtain ⟨s, hs, hpost, hempty, hjec, hpark⟩ := run_park
  obtain ⟨s', hrun, hinj, hworker, hpost'⟩ := @run_wholeBatch 1 1 (2 ^ 32) ⟨0, 0⟩ (fun _ => 0) s (Nat.two_pow_pos 32)
    (Nat.mod_self _) ⟨by rw [hpost], by simp⟩ hempty hjec
  refine ⟨s', ?_, hinj, ?_, ?_⟩
  · rw [run_append hs, hrun]
  · intro i hi
    rw [hworker, Nat.lt_one_iff.1 hi]
    exact hpark
  · intro t
    rw [hpost', hpost]
    rfl

end YouPipe.Pool
