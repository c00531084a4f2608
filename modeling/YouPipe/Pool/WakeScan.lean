/-
`SleepMask::wake_scan` driven by `wake_specific_thread` (`pool/sleep_mask.rs`, `pool/sleep.rs`), one scan among any other
workers and wakers.

The machine keeps of the pool what the scan meets: the mask, the `is_blocked` flags, the sleep mutexes and the counter word.
The environment takes free mutexes, and under a mutex it does what `sleep` and `wake_specific_thread` do, in their order: a
worker sets its bit before its flag, a waker clears the flag before the bit, and nobody lets the mutex go while the two
differ. The counter word is anyone's at any time. A step of the scan is one atomic operation. It starts on any such state.

`log` lists every change of a flag, `passAt` is its length when the current pass over the words began, `subs` lists the
workers whose unit the scan took off the counter.

Results:
- `split_index`: distinct workers have distinct places inside the array;
- `Inv.spec`: whom a scan wakes, and whom it may leave;
- `run_budget`, from the potential `St.budget`: its steps are bounded by the environment's changes of bits and flags;
- `wake_scan`: all of it.
-/
import Mathlib.Tactic
import YouPipe.Core.Machine
import YouPipe.Pool.Counters
import YouPipe.Pool.SleepMask

namespace YouPipe.WakeScan

open YouPipe.Word YouPipe.Pool

/-! ## The machine -/

/-- the locals of `wake_scan` -/
structure Frame where
  woken : ℕ
  word : ℕ
  bits : BitVec 64
deriving DecidableEq, Repr

/-- the scan at a word or at the bits loaded from it, or in `wake_specific_thread` -/
inductive Pc where
  | load (f : Frame)
  | bits (f : Frame)
  | enter (i : ℕ) (f : Frame)
  | check (i : ℕ) (f : Frame)
  | clear (i : ℕ) (f : Frame)
  | sub (i : ℕ) (f : Frame)
  | unlock (i : ℕ) (f : Frame) (woken : Bool)
  | notify (i : ℕ) (f : Frame)
  | returned (woken : ℕ)
deriving DecidableEq, Repr

/-- a sleep mutex -/
inductive Lock where
  | free
  | environment
  | scan
deriving DecidableEq, Repr

/-- a change of a flag: its worker blocks, the scan wakes it, another waker wakes it -/
inductive Event where
  | blocks (i : ℕ)
  | wakes (i : ℕ)
  | unblocks (i : ℕ)
deriving DecidableEq, Repr

structure St where
  mask : SleepMask
  blocked : ℕ → Bool
  lock : ℕ → Lock
  word : ℕ
  pc : Pc
  log : List Event
  passAt : ℕ
  subs : List ℕ

inductive Act where
  | scan
  | acquire (i : ℕ)
  | setBit (i : ℕ)
  | clearBit (i : ℕ)
  | block (i : ℕ)
  | unblock (i : ℕ)
  | release (i : ℕ)
  | setWord (x : ℕ)
deriving DecidableEq, Repr

/-- the entry of `wake_scan` -/
def enterScan (target : ℕ) : Pc := if target = 0 then .returned 0 else .load ⟨0, 0, 0#64⟩

/-- one step of the scan on a pool of `n` threads -/
def scanStep (n target : ℕ) (s : St) : Option St :=
  match s.pc with
  | .load f =>
    if f.word < SleepMask.nWords n then some { s with pc := .bits { f with bits := s.mask f.word } }
    else some { s with pc := .returned f.woken }
  | .bits f =>
    if f.bits = 0#64 then some { s with pc := .load { f with word := f.word + 1 } }
    else
      let b := trailingZeros f.bits
      some { s with pc := .enter (f.word * bitsPerWord + b) { f with bits := f.bits &&& ~~~(1#64 <<< b) } }
  | .enter i f =>
    if i < n ∧ s.lock i = .free then some { s with lock := Function.update s.lock i .scan, pc := .check i f } else none
  | .check i f =>
    if s.blocked i then
      some { s with blocked := Function.update s.blocked i false, log := s.log ++ [.wakes i], pc := .clear i f }
    else some { s with pc := .unlock i f false }
  | .clear i f => some { s with mask := s.mask.clear i, pc := .sub i f }
  | .sub i f => some { s with word := wrappingSub s.word oneSleeping, subs := s.subs ++ [i], pc := .unlock i f true }
  | .unlock i f true => some { s with lock := Function.update s.lock i .free, pc := .notify i f }
  | .unlock i f false =>
    -- a stale bit: `continue 'outer`
    some { s with
      lock := Function.update s.lock i .free
      passAt := s.log.length
      pc := if f.woken < target then .load { f with word := 0 } else .returned f.woken }
  | .notify _ f =>
    some { s with pc := if target ≤ f.woken + 1 then .returned (f.woken + 1) else .bits { f with woken := f.woken + 1 } }
  | .returned _ => none

/-- a step of the scan, or of another worker or waker -/
def step (n target : ℕ) (s : St) : Act → Option St
  | .scan => scanStep n target s
  | .acquire i =>
    if i < n ∧ s.lock i = .free then some { s with lock := Function.update s.lock i .environment } else none
  | .setBit i => if i < n ∧ s.lock i = .environment then some { s with mask := s.mask.set i } else none
  | .clearBit i =>
    if i < n ∧ s.lock i = .environment ∧ s.blocked i = false then some { s with mask := s.mask.clear i } else none
  | .block i =>
    if i < n ∧ s.lock i = .environment ∧ s.blocked i = false ∧ s.mask.bit i = true then
      some { s with blocked := Function.update s.blocked i true, log := s.log ++ [.blocks i] }
    else none
  | .unblock i =>
    if i < n ∧ s.lock i = .environment ∧ s.blocked i = true then
      some { s with blocked := Function.update s.blocked i false, log := s.log ++ [.unblocks i] }
    else none
  | .release i =>
    if i < n ∧ s.lock i = .environment ∧ s.mask.bit i = s.blocked i then
      some { s with lock := Function.update s.lock i .free }
    else none
  | .setWord x => some { s with word := x }

def run (n target : ℕ) (s : St) (acts : List Act) : Option St := acts.foldlM (step n target) s

/-- the flags and the mask that the protocol allows in front of a scan -/
structure Start (n target : ℕ) (s : St) : Prop where
  pc : s.pc = enterScan target
  others : ∀ i, s.lock i ≠ .scan
  marked : ∀ i, s.blocked i = true → s.mask.bit i = true
  agree : ∀ i, s.lock i = .free → s.mask.bit i = s.blocked i
  workers : ∀ i, s.mask.bit i = true → i < n
  log : s.log = []
  passAt : s.passAt = 0
  subs : s.subs = []

/-! ## Places in the array -/

/-- `MASK_WORDS` -/
def maskWords : ℕ := (threadsMax + bitsPerWord - 1) / bitsPerWord

/-- **distinct workers have distinct places**: one bit, of a word of the array, which is scanned -/
theorem split_index {n i : ℕ} (hn : n ≤ threadsMax) (hi : i < n) (j : ℕ) :
    wordOf i < SleepMask.nWords n ∧ SleepMask.nWords n ≤ maskWords ∧
      ((wordOf i, bitOf i) = (wordOf j, bitOf j) → i = j) := by
  refine ⟨?_, ?_, ?_⟩
  · simp only [wordOf, SleepMask.nWords, bitsPerWord]
    omega
  · simp only [SleepMask.nWords, maskWords, bitsPerWord]
    omega
  · intro h
    rw [Prod.mk.injEq] at h
    obtain ⟨hw, hb⟩ := h
    have hlt : i % bitsPerWord < 64 := Nat.mod_lt i (by decide)
    have hbit := congrArg (fun x => x.getLsbD (i % bitsPerWord)) hb
    rw [getLsbD_bitOf i _ hlt, getLsbD_bitOf j _ hlt, decide_eq_decide] at hbit
    have hmod := hbit.1 rfl
    simp only [wordOf, bitsPerWord] at hw hmod
    omega

/-! ## The bits still to visit -/

/-- the workers of the set bits, lowest first -/
def Frame.todo (f : Frame) : List ℕ :=
  ((List.range 64).filter fun b => f.bits.getLsbD b).map fun b => f.word * bitsPerWord + b

theorem filter_of_find? {A : Type} [DecidableEq A] {p : A → Bool} {l : List A} {b : A} (hl : l.Nodup) (h : l.find? p = some b) :
    l.filter p = b :: l.filter fun x => p x && !decide (x = b) := by
  induction l with
  | nil => cases h
  | cons a l ih =>
    obtain ⟨ha, hl⟩ := List.nodup_cons.1 hl
    by_cases hp : p a = true
    · rw [List.find?_cons_of_pos hp] at h
      obtain rfl := Option.some.inj h
      rw [List.filter_cons_of_pos hp, List.filter_cons_of_neg (by simp)]
      congr 1
      apply List.filter_congr
      intro x hx
      have hne : x ≠ a := fun heq => ha (heq ▸ hx)
      simp [hne]
    · rw [List.find?_cons_of_neg hp] at h
      rw [List.filter_cons_of_neg hp, List.filter_cons_of_neg (by simp [hp])]
      exact ih hl h

theorem todo_nil {f : Frame} (h : f.bits = 0#64) : f.todo = [] := by
  simp [Frame.todo, h]

theorem mem_todo {f : Frame} {i : ℕ} : i ∈ f.todo ↔ wordOf i = f.word ∧ f.bits.getLsbD (i % bitsPerWord) = true := by
  simp only [Frame.todo, List.mem_map, List.mem_filter, List.mem_range]
  constructor
  · rintro ⟨b, ⟨hb, hbit⟩, rfl⟩
    simp only [wordOf, bitsPerWord]
    have hmod : (f.word * 64 + b) % 64 = b := by omega
    exact ⟨by omega, by rw [hmod]; exact hbit⟩
  · rintro ⟨hw, hbit⟩
    refine ⟨i % bitsPerWord, ⟨Nat.mod_lt i (by decide), hbit⟩, ?_⟩
    rw [← hw]
    simp only [wordOf, bitsPerWord]
    omega

theorem length_todo_le (f : Frame) : f.todo.length ≤ 64 := by
  rw [Frame.todo, List.length_map]
  calc _ ≤ (List.range 64).length := List.length_filter_le _ _
    _ = 64 := List.length_range

/-- the lowest bit is visited first, and taken out -/
theorem todo_cons {f : Frame} (h : f.bits ≠ 0#64) : f.todo = (f.word * bitsPerWord + trailingZeros f.bits) ::
    ({ f with bits := f.bits &&& ~~~(1#64 <<< trailingZeros f.bits) } : Frame).todo := by
  obtain ⟨hlt, hbit⟩ := trailingZeros_spec h
  have hfind : (List.range 64).find? (fun b => f.bits.getLsbD b) = some (trailingZeros f.bits) := by
    rcases hf : (List.range 64).find? fun b => f.bits.getLsbD b with _ | c
    · rw [List.find?_eq_none] at hf
      exact absurd hbit (hf _ (List.mem_range.2 hlt))
    · rw [trailingZeros, hf, Option.getD_some]
  have hrest : (List.range 64).filter (fun b => f.bits.getLsbD b && !decide (b = trailingZeros f.bits)) =
      (List.range 64).filter fun b => (f.bits &&& ~~~(1#64 <<< trailingZeros f.bits)).getLsbD b := by
    apply List.filter_congr
    intro b hb
    have hb := List.mem_range.1 hb
    have hone := getLsbD_bitOf (trailingZeros f.bits) b hb
    rw [bitOf, bitsPerWord, Nat.mod_eq_of_lt hlt] at hone
    rw [BitVec.getLsbD_and, BitVec.getLsbD_not, hone]
    simp [hb]
  rw [Frame.todo, filter_of_find? List.nodup_range hfind, List.map_cons, hrest]
  rfl

theorem nodup_todo (f : Frame) : f.todo.Nodup := by
  apply List.Nodup.map
  · intro a b hab
    dsimp only at hab
    omega
  · exact List.nodup_range.filter _

/-! ## The log -/

/-- a flag changes -/
def Event.apply (flags : ℕ → Bool) : Event → ℕ → Bool
  | .blocks i => Function.update flags i true
  | .wakes i => Function.update flags i false
  | .unblocks i => Function.update flags i false

/-- the flags after a log -/
def flagsAfter (flags : ℕ → Bool) (log : List Event) : ℕ → Bool := log.foldl Event.apply flags

/-- the workers the scan woke, in order -/
def wakesOf (log : List Event) : List ℕ :=
  log.filterMap fun e => match e with
    | .wakes i => some i
    | _ => none

/-- woken by the scan or by another waker -/
def WokenIn (i : ℕ) (log : List Event) : Prop := .wakes i ∈ log ∨ .unblocks i ∈ log

theorem flagsAfter_append (flags : ℕ → Bool) (l l' : List Event) :
    flagsAfter flags (l ++ l') = flagsAfter (flagsAfter flags l) l' := List.foldl_append

theorem wakesOf_append (l l' : List Event) : wakesOf (l ++ l') = wakesOf l ++ wakesOf l' := List.filterMap_append

/-- a flag stays up until someone wakes its worker -/
theorem flagsAfter_of_not_woken {flags : ℕ → Bool} {i : ℕ} {log : List Event} (h : flags i = true) (hno : ¬ WokenIn i log) :
    flagsAfter flags log i = true := by
  induction log generalizing flags with
  | nil => exact h
  | cons e log ih =>
    have hlog : ¬ WokenIn i log := fun hw => hno (hw.imp (List.mem_cons_of_mem e) (List.mem_cons_of_mem e))
    refine ih ?_ hlog
    cases e with
    | blocks j =>
      by_cases hj : i = j
      · simp [Event.apply, hj]
      · simp [Event.apply, hj, h]
    | wakes j =>
      have hj : i ≠ j := fun hj => hno (Or.inl (hj ▸ List.mem_cons_self))
      simp [Event.apply, hj, h]
    | unblocks j =>
      have hj : i ≠ j := fun hj => hno (Or.inr (hj ▸ List.mem_cons_self))
      simp [Event.apply, hj, h]

/-- a flag goes up only when its worker blocks -/
theorem blocks_mem_of_flag {flags : ℕ → Bool} {i : ℕ} {log : List Event} (h : flags i = false) (hup : flagsAfter flags log i = true) :
    .blocks i ∈ log := by
  induction log generalizing flags with
  | nil =>
    rw [flagsAfter, List.foldl_nil, h] at hup
    cases hup
  | cons e log ih =>
    by_cases he : e = .blocks i
    · rw [he]
      exact List.mem_cons_self
    · refine List.mem_cons_of_mem e (ih ?_ hup)
      cases e with
      | blocks j =>
        have hj : i ≠ j := fun hj => he (by rw [hj])
        simp [Event.apply, hj, h]
      | wakes j =>
        by_cases hj : i = j
        · simp [Event.apply, hj]
        · simp [Event.apply, hj, h]
      | unblocks j =>
        by_cases hj : i = j
        · simp [Event.apply, hj]
        · simp [Event.apply, hj, h]

/-! ## Invariants -/

namespace Pc

/-- the worker whose mutex the scan holds -/
def holding : Pc → Option ℕ
  | .check i _ => some i
  | .clear i _ => some i
  | .sub i _ => some i
  | .unlock i _ _ => some i
  | _ => none

/-- the workers of the loaded word that are still to be asked -/
def pending : Pc → List ℕ
  | .bits f => f.todo
  | .enter i f => i :: f.todo
  | .check i f => i :: f.todo
  | .clear _ f => f.todo
  | .sub _ f => f.todo
  | .unlock _ f true => f.todo
  | .notify _ f => f.todo
  | _ => []

/-- successful wakes so far -/
def woken : Pc → ℕ
  | .load f => f.woken
  | .bits f => f.woken
  | .enter _ f => f.woken
  | .check _ f => f.woken
  | .clear _ f => f.woken + 1
  | .sub _ f => f.woken + 1
  | .unlock _ f true => f.woken + 1
  | .unlock _ f false => f.woken
  | .notify _ f => f.woken + 1
  | .returned woken => woken

/-- a woken worker whose unit is still on the counter -/
def unsettled : Pc → List ℕ
  | .clear i _ => [i]
  | .sub i _ => [i]
  | _ => []

/-- how far the count may have come: a frame that goes on is below the target -/
def Below (target : ℕ) : Pc → Prop
  | .load f => f.woken < target
  | .bits f => f.woken < target
  | .enter _ f => f.woken < target
  | .check _ f => f.woken < target
  | .clear _ f => f.woken < target
  | .sub _ f => f.woken < target
  | .unlock _ f _ => f.woken < target
  | .notify _ f => f.woken < target
  | .returned woken => woken ≤ target

/-- the pass will still come to worker `i`, or the scan does not owe it -/
def Ahead (target i : ℕ) : Pc → Prop
  | .load f => f.word ≤ wordOf i
  | .bits f => i ∈ f.todo ∨ f.word < wordOf i
  | .enter j f => i ∈ j :: f.todo ∨ f.word < wordOf i
  | .check j f => i ∈ j :: f.todo ∨ f.word < wordOf i
  | .clear _ f => i ∈ f.todo ∨ f.word < wordOf i
  | .sub _ f => i ∈ f.todo ∨ f.word < wordOf i
  | .unlock _ f true => i ∈ f.todo ∨ f.word < wordOf i
  | .unlock _ _ false => True
  | .notify _ f => i ∈ f.todo ∨ f.word < wordOf i
  | .returned woken => target ≤ woken

end Pc

/-- what the scan knows of the worker it is at -/
def AtWorker (s : St) : Pc → Prop
  | .enter i f => i ∉ f.todo
  | .check i f => i ∉ f.todo ∧ s.mask.bit i = s.blocked i
  | .clear i f => i ∉ f.todo ∧ s.blocked i = false ∧ s.mask.bit i = true
  | .sub i _ => s.blocked i = false ∧ s.mask.bit i = false
  | .unlock i _ _ => s.blocked i = false ∧ s.mask.bit i = false
  | _ => True

/-- the mask against the flags, and who holds the mutexes -/
structure Marks (n : ℕ) (s : St) : Prop where
  marked : ∀ i, s.blocked i = true → s.mask.bit i = true
  agree : ∀ i, s.lock i = .free → s.mask.bit i = s.blocked i
  workers : ∀ i, s.mask.bit i = true → i < n
  holds : ∀ i, s.lock i = .scan ↔ s.pc.holding = some i
  atWorker : AtWorker s s.pc
  pending : ∀ i ∈ s.pc.pending, i < n

/-- the log against the scan's counts -/
structure Logs (target : ℕ) (flags : ℕ → Bool) (s : St) : Prop where
  replay : s.blocked = flagsAfter flags s.log
  sound : ∀ l i l', s.log = l ++ .wakes i :: l' → flagsAfter flags l i = true
  counted : (wakesOf s.log).length = s.pc.woken
  settled : wakesOf s.log = s.subs ++ s.pc.unsettled
  below : s.pc.Below target

/-- of the workers blocked when the pass began, none is passed over -/
structure Covers (n target : ℕ) (flags : ℕ → Bool) (s : St) : Prop where
  le : s.passAt ≤ s.log.length
  ahead : ∀ i < n, flagsAfter flags (s.log.take s.passAt) i = true →
    WokenIn i (s.log.drop s.passAt) ∨ s.pc.Ahead target i

structure Inv (n target : ℕ) (flags : ℕ → Bool) (s : St) : Prop where
  marks : Marks n s
  logs : Logs target flags s
  covers : Covers n target flags s

section Steps

variable {n target : ℕ} {flags : ℕ → Bool} {s s' : St}

theorem start_inv (h : Start n target s) : Inv n target s.blocked s := by
  have hpc : s.pc.holding = none ∧ s.pc.pending = [] ∧ s.pc.woken = 0 ∧ s.pc.unsettled = [] ∧ s.pc.Below target ∧
      AtWorker s s.pc ∧ ∀ i, s.pc.Ahead target i := by
    rw [h.pc, enterScan]
    split_ifs with h0
    · exact ⟨rfl, rfl, rfl, rfl, Nat.zero_le _, trivial, fun _ => h0.le⟩
    · exact ⟨rfl, rfl, rfl, rfl, Nat.pos_of_ne_zero h0, trivial, fun _ => Nat.zero_le _⟩
  obtain ⟨hholding, hpending, hwoken, hunsettled, hbelow, hat, hahead⟩ := hpc
  refine ⟨⟨h.marked, h.agree, h.workers, ?_, hat, by simp [hpending]⟩, ⟨?_, ?_, ?_, ?_, hbelow⟩, ⟨?_, fun i _ _ => Or.inr (hahead i)⟩⟩
  · intro i
    simp [hholding, h.others i]
  · rw [h.log]
    rfl
  · intro l i l' hl
    simp [h.log] at hl
  · rw [h.log, hwoken]
    rfl
  · rw [h.log, h.subs, hunsettled]
    rfl
  · rw [h.passAt]
    exact Nat.zero_le _

/-! ## The environment -/

/-- what the scan knows of the worker it is at depends on that worker alone -/
theorem AtWorker.congr {pc : Pc} (h : AtWorker s pc) (hw : ∀ i, pc.holding = some i → s'.mask.bit i = s.mask.bit i ∧ s'.blocked i = s.blocked i) :
    AtWorker s' pc := by
  cases pc with
  | load f | bits f | notify i f | returned w => trivial
  | enter i f => exact h
  | check i f =>
    obtain ⟨hb, hf⟩ := hw i rfl
    exact ⟨h.1, by rw [hb, hf]; exact h.2⟩
  | clear i f => exact ⟨h.1, (hw i rfl).2.trans h.2.1, (hw i rfl).1.trans h.2.2⟩
  | sub i f => exact ⟨(hw i rfl).2.trans h.1, (hw i rfl).1.trans h.2⟩
  | unlock i f woken => exact ⟨(hw i rfl).2.trans h.1, (hw i rfl).1.trans h.2⟩

theorem Marks.held_ne (h : Marks n s) {i j : ℕ} (hi : s.lock i = .environment) (hj : s.pc.holding = some j) : j ≠ i := by
  intro hji
  rw [hji, ← h.holds i, hi] at hj
  cases hj

/-- the holder of a mutex changes the records of its worker -/
theorem Marks.change (h : Marks n s) {i : ℕ} (hi : i < n) (hlock : s.lock i ≠ .free) (hl : s'.lock = s.lock)
    (hbits : ∀ j, j ≠ i → s'.mask.bit j = s.mask.bit j) (hflags : ∀ j, j ≠ i → s'.blocked j = s.blocked j)
    (hmarked : s'.blocked i = true → s'.mask.bit i = true) (hholding : s'.pc.holding = s.pc.holding)
    (hat : AtWorker s' s'.pc) (hpending : ∀ j ∈ s'.pc.pending, j < n) : Marks n s' := by
  refine ⟨?_, ?_, ?_, ?_, hat, hpending⟩
  · intro j hj
    by_cases hji : j = i
    · subst hji
      exact hmarked hj
    · rw [hbits j hji]
      exact h.marked j (hflags j hji ▸ hj)
  · intro j hj
    rw [hl] at hj
    have hji : j ≠ i := fun hji => hlock (hji ▸ hj)
    rw [hbits j hji, hflags j hji]
    exact h.agree j hj
  · intro j hj
    by_cases hji : j = i
    · exact hji ▸ hi
    · exact h.workers j (hbits j hji ▸ hj)
  · rw [hl, hholding]
    exact h.holds

/-- the environment changes the records of a worker whose mutex it holds -/
theorem Marks.envChange (h : Marks n s) {i : ℕ} (hi : i < n) (hlock : s.lock i = .environment) (hpc : s'.pc = s.pc)
    (hl : s'.lock = s.lock) (hbits : ∀ j, j ≠ i → s'.mask.bit j = s.mask.bit j)
    (hflags : ∀ j, j ≠ i → s'.blocked j = s.blocked j) (hmarked : s'.blocked i = true → s'.mask.bit i = true) : Marks n s' := by
  refine h.change hi (by rw [hlock]; decide) hl hbits hflags hmarked (by rw [hpc]) ?_ (by rw [hpc]; exact h.pending)
  rw [hpc]
  refine h.atWorker.congr ?_
  intro j hj
  have hji := h.held_ne hlock hj
  exact ⟨hbits j hji, hflags j hji⟩

/-- the environment takes or releases a mutex -/
theorem Marks.relock (h : Marks n s) {i : ℕ} {l : Lock} (hold : s.lock i ≠ .scan) (hl : l ≠ .scan)
    (hagree : l = .free → s.mask.bit i = s.blocked i) : Marks n { s with lock := Function.update s.lock i l } := by
  refine ⟨h.marked, ?_, h.workers, ?_, h.atWorker.congr fun _ _ => ⟨rfl, rfl⟩, h.pending⟩
  · intro j hj
    by_cases hji : j = i
    · subst hji
      exact hagree (by simpa using hj)
    · exact h.agree j (by simpa [hji] using hj)
  · intro j
    by_cases hji : j = i
    · subst hji
      simp only [Function.update_self, hl, false_iff]
      rw [← h.holds j]
      exact hold
    · simp only [Function.update_of_ne hji]
      exact h.holds j

/-- a wake that finds its worker blocked may be logged -/
theorem Logs.sound_append {e : Event} (h : Logs target flags s) (he : ∀ i, e = .wakes i → s.blocked i = true) (l : List Event)
    (i : ℕ) (l' : List Event) (hl : s.log ++ [e] = l ++ .wakes i :: l') : flagsAfter flags l i = true := by
  rcases List.eq_nil_or_concat l' with rfl | ⟨l'', e', rfl⟩
  · obtain ⟨hlog, hlast⟩ := List.append_inj' hl rfl
    rw [← hlog, ← h.replay]
    exact he i (List.cons.inj hlast).1
  · have hl2 : s.log ++ [e] = (l ++ .wakes i :: l'') ++ [e'] := by simpa using hl
    exact h.sound l i l'' (List.append_inj' hl2 rfl).1

/-- a flag change by the environment -/
theorem Logs.change {e : Event} (h : Logs target flags s) (he : ∀ i, e ≠ .wakes i) :
    Logs target flags { s with blocked := e.apply s.blocked, log := s.log ++ [e] } := by
  have hwakes : wakesOf (s.log ++ [e]) = wakesOf s.log := by
    rw [wakesOf_append]
    cases e with
    | wakes i => exact absurd rfl (he i)
    | blocks i | unblocks i => exact List.append_nil _
  refine ⟨?_, h.sound_append fun i hi => absurd hi (he i), ?_, ?_, h.below⟩
  · dsimp only
    rw [flagsAfter_append, ← h.replay]
    rfl
  · exact hwakes.symm ▸ h.counted
  · exact hwakes.symm ▸ h.settled

/-- events after the start of the pass only add wakes -/
theorem Covers.change {e : Event} {blocked : ℕ → Bool} (h : Covers n target flags s) :
    Covers n target flags { s with blocked := blocked, log := s.log ++ [e] } := by
  refine ⟨by simpa using Nat.le_succ_of_le h.le, ?_⟩
  intro i hi hflag
  dsimp only at hflag ⊢
  rw [List.take_append_of_le_length h.le] at hflag
  rw [List.drop_append_of_le_length h.le]
  exact (h.ahead i hi hflag).imp (Or.imp (List.mem_append_left _) (List.mem_append_left _)) id

theorem envStep_inv {a : Act} (h : Inv n target flags s) (ha : a ≠ .scan) (hs : step n target s a = some s') :
    Inv n target flags s' := by
  obtain ⟨hm, hl, hc⟩ := h
  cases a with
  | scan => exact absurd rfl ha
  | acquire i =>
    simp only [step] at hs
    split_ifs at hs with hg
    cases hs
    exact ⟨hm.relock (by rw [hg.2]; decide) (by decide) (by simp), ⟨hl.replay, hl.sound, hl.counted, hl.settled, hl.below⟩, ⟨hc.le, hc.ahead⟩⟩
  | setBit i =>
    simp only [step] at hs
    split_ifs at hs with hg
    cases hs
    refine ⟨hm.envChange hg.1 hg.2 rfl rfl ?_ (fun _ _ => rfl) ?_, ⟨hl.replay, hl.sound, hl.counted, hl.settled, hl.below⟩, ⟨hc.le, hc.ahead⟩⟩
    · intro j hj
      simp [SleepMask.bit_set, hj]
    · simp [SleepMask.bit_set]
  | clearBit i =>
    simp only [step] at hs
    split_ifs at hs with hg
    cases hs
    refine ⟨hm.envChange hg.1 hg.2.1 rfl rfl ?_ (fun _ _ => rfl) ?_, ⟨hl.replay, hl.sound, hl.counted, hl.settled, hl.below⟩, ⟨hc.le, hc.ahead⟩⟩
    · intro j hj
      simp [SleepMask.bit_clear, hj]
    · intro hb
      rw [hg.2.2] at hb
      cases hb
  | block i =>
    simp only [step] at hs
    split_ifs at hs with hg
    cases hs
    refine ⟨hm.envChange hg.1 hg.2.1 rfl rfl (fun _ _ => rfl) ?_ fun _ => hg.2.2.2, ?_, hc.change⟩
    · intro j hj
      simp [hj]
    · have hlog := @Logs.change target flags s (.blocks i) hl (by simp)
      exact hlog
  | unblock i =>
    simp only [step] at hs
    split_ifs at hs with hg
    cases hs
    refine ⟨hm.envChange hg.1 hg.2.1 rfl rfl (fun _ _ => rfl) ?_ ?_, ?_, hc.change⟩
    · intro j hj
      simp [hj]
    · simp
    · have hlog := @Logs.change target flags s (.unblocks i) hl (by simp)
      exact hlog
  | release i =>
    simp only [step] at hs
    split_ifs at hs with hg
    cases hs
    exact ⟨hm.relock (by rw [hg.2.1]; decide) (by decide) fun _ => hg.2.2, ⟨hl.replay, hl.sound, hl.counted, hl.settled, hl.below⟩, ⟨hc.le, hc.ahead⟩⟩
  | setWord x =>
    cases hs
    exact ⟨⟨hm.marked, hm.agree, hm.workers, hm.holds, hm.atWorker.congr fun _ _ => ⟨rfl, rfl⟩, hm.pending⟩,
      ⟨hl.replay, hl.sound, hl.counted, hl.settled, hl.below⟩, ⟨hc.le, hc.ahead⟩⟩

/-! ## The scan -/

/-- the scan goes on without touching the records -/
theorem Inv.goto {pc : Pc} (h : Inv n target flags s) (hhold : pc.holding = s.pc.holding) (hat : AtWorker s pc)
    (hpending : ∀ i ∈ pc.pending, i < n) (hwoken : pc.woken = s.pc.woken) (hunsettled : pc.unsettled = s.pc.unsettled)
    (hbelow : pc.Below target)
    (hahead : ∀ i < n, s.pc.Ahead target i → s.mask.bit i = true → pc.Ahead target i) :
    Inv n target flags { s with pc := pc } := by
  refine ⟨⟨h.marks.marked, h.marks.agree, h.marks.workers, ?_, hat.congr fun _ _ => ⟨rfl, rfl⟩, hpending⟩,
    ⟨h.logs.replay, h.logs.sound, ?_, ?_, hbelow⟩, ⟨h.covers.le, ?_⟩⟩
  · intro i
    rw [hhold]
    exact h.marks.holds i
  · rw [hwoken]
    exact h.logs.counted
  · rw [hunsettled]
    exact h.logs.settled
  · intro i hi hflag
    by_cases hw : WokenIn i (s.log.drop s.passAt)
    · exact Or.inl hw
    · refine Or.inr (hahead i hi ((h.covers.ahead i hi hflag).resolve_left hw) (h.marks.marked i ?_))
      have hnow := flagsAfter_of_not_woken hflag hw
      rw [← flagsAfter_append, List.take_append_drop, ← h.logs.replay] at hnow
      exact hnow

theorem mem_todo_load {f : Frame} {i : ℕ} : i ∈ ({ f with bits := s.mask f.word } : Frame).todo ↔ wordOf i = f.word ∧ s.mask.bit i = true := by
  rw [mem_todo]
  constructor
  · rintro ⟨hw, hb⟩
    exact ⟨hw, by rw [SleepMask.bit, hw]; exact hb⟩
  · rintro ⟨hw, hb⟩
    exact ⟨hw, by rw [SleepMask.bit, hw] at hb; exact hb⟩

theorem load_inv {f : Frame} (h : Inv n target flags s) (hpc : s.pc = .load f) :
    Inv n target flags { s with pc := .bits { f with bits := s.mask f.word } } := by
  refine h.goto (by rw [hpc]; rfl) trivial ?_ (by rw [hpc]; rfl) (by rw [hpc]; rfl) ?_ ?_
  · intro i hi
    exact h.marks.workers i (mem_todo_load.1 hi).2
  · have hbelow := h.logs.below
    rw [hpc] at hbelow
    exact hbelow
  · intro i _ hahead hbit
    rw [hpc] at hahead
    rcases Nat.eq_or_lt_of_le hahead with heq | hgt
    · exact Or.inl (mem_todo_load.2 ⟨heq.symm, hbit⟩)
    · exact Or.inr hgt

/-- after the last word no worker is ahead -/
theorem break_inv {f : Frame} (h : Inv n target flags s) (hpc : s.pc = .load f) (hge : ¬ f.word < SleepMask.nWords n) :
    Inv n target flags { s with pc := .returned f.woken } := by
  have hbelow := h.logs.below
  rw [hpc] at hbelow
  refine h.goto (by rw [hpc]; rfl) trivial (by simp [Pc.pending]) (by rw [hpc]; rfl) (by rw [hpc]; rfl) hbelow.le ?_
  intro i hi hahead _
  rw [hpc] at hahead
  have hword : wordOf i < SleepMask.nWords n := by
    simp only [wordOf, SleepMask.nWords, bitsPerWord]
    omega
  simp only [Pc.Ahead] at hahead
  omega

theorem nextWord_inv {f : Frame} (h : Inv n target flags s) (hpc : s.pc = .bits f) (hz : f.bits = 0#64) :
    Inv n target flags { s with pc := .load { f with word := f.word + 1 } } := by
  have hbelow := h.logs.below
  rw [hpc] at hbelow
  refine h.goto (by rw [hpc]; rfl) trivial (by simp [Pc.pending]) (by rw [hpc]; rfl) (by rw [hpc]; rfl) hbelow ?_
  intro i _ hahead _
  rw [hpc, Pc.Ahead, todo_nil hz] at hahead
  exact hahead.resolve_left List.not_mem_nil

theorem nextBit_inv {f : Frame} (h : Inv n target flags s) (hpc : s.pc = .bits f) (hz : f.bits ≠ 0#64) :
    Inv n target flags { s with
      pc := (.enter (f.word * bitsPerWord + trailingZeros f.bits) { f with bits := f.bits &&& ~~~(1#64 <<< trailingZeros f.bits) }) } := by
  have hcons := todo_cons hz
  have hnodup := nodup_todo f
  have hbelow := h.logs.below
  rw [hpc] at hbelow
  rw [hcons, List.nodup_cons] at hnodup
  refine h.goto (by rw [hpc]; rfl) hnodup.1 ?_ (by rw [hpc]; rfl) (by rw [hpc]; rfl) hbelow ?_
  · have hpending := h.marks.pending
    rw [hpc, Pc.pending, hcons] at hpending
    exact hpending
  · intro i _ hahead _
    rw [hpc, Pc.Ahead, hcons] at hahead
    exact hahead

theorem enter_inv {i : ℕ} {f : Frame} (h : Inv n target flags s) (hpc : s.pc = .enter i f) (hfree : s.lock i = .free) :
    Inv n target flags { s with lock := Function.update s.lock i .scan, pc := .check i f } := by
  obtain ⟨hm, hl, hc⟩ := h
  have hat := hm.atWorker
  have hpending := hm.pending
  have hcounted := hl.counted
  have hsettled := hl.settled
  have hbelow := hl.below
  have hahead := hc.ahead
  rw [hpc] at hat hpending hcounted hsettled hbelow
  simp only [hpc] at hahead
  refine ⟨⟨hm.marked, ?_, hm.workers, ?_, ⟨hat, hm.agree i hfree⟩, hpending⟩, ⟨hl.replay, hl.sound, hcounted, hsettled, hbelow⟩,
    ⟨hc.le, hahead⟩⟩
  · intro j hj
    by_cases hji : j = i
    · subst hji
      simp at hj
    · exact hm.agree j (by simpa [hji] using hj)
  · intro j
    have hj := hm.holds j
    rw [hpc] at hj
    by_cases hji : j = i
    · subst hji
      simp [Pc.holding]
    · have hne : i ≠ j := Ne.symm hji
      simpa [hji, hne, Pc.holding] using hj

/-- the wake itself -/
theorem wake_inv {i : ℕ} {f : Frame} (h : Inv n target flags s) (hpc : s.pc = .check i f) (hb : s.blocked i = true) :
    Inv n target flags { s with blocked := Function.update s.blocked i false, log := s.log ++ [.wakes i], pc := .clear i f } := by
  obtain ⟨hm, hl, hc⟩ := h
  have hlock := (hm.holds i).2 (by rw [hpc]; rfl)
  have hat := hm.atWorker
  have hpending := hm.pending
  have hcounted := hl.counted
  have hsettled := hl.settled
  have hbelow := hl.below
  rw [hpc] at hat hpending hcounted hsettled hbelow
  refine ⟨hm.change (hpending i List.mem_cons_self) (by rw [hlock]; decide) rfl (fun _ _ => rfl) ?_ ?_ (by rw [hpc]; rfl)
      ⟨hat.1, ?_, hat.2.trans hb⟩ ?_,
    ⟨?_, hl.sound_append ?_, ?_, ?_, hbelow⟩, ⟨by simpa using Nat.le_succ_of_le hc.le, ?_⟩⟩
  · intro j hj
    simp [hj]
  · simp
  · simp
  · intro j hj
    exact hpending j (List.mem_cons_of_mem i hj)
  · dsimp only
    rw [flagsAfter_append, ← hl.replay]
    rfl
  · intro j hj
    cases hj
    exact hb
  · dsimp only
    rw [wakesOf_append, List.length_append, hcounted]
    rfl
  · dsimp only
    rw [wakesOf_append, hsettled]
    simp [Pc.unsettled, wakesOf]
  · intro j hj hflag
    dsimp only at hflag ⊢
    rw [List.take_append_of_le_length hc.le] at hflag
    rw [List.drop_append_of_le_length hc.le]
    rcases hc.ahead j hj hflag with hw | hahead
    · exact Or.inl (hw.imp (List.mem_append_left _) (List.mem_append_left _))
    · rw [hpc] at hahead
      rcases hahead with hmem | hgt
      · rcases List.mem_cons.1 hmem with rfl | hmem
        · exact Or.inl (Or.inl (by simp))
        · exact Or.inr (Or.inl hmem)
      · exact Or.inr (Or.inr hgt)

theorem stale_inv {i : ℕ} {f : Frame} (h : Inv n target flags s) (hpc : s.pc = .check i f) (hb : s.blocked i = false) :
    Inv n target flags { s with pc := .unlock i f false } := by
  have hbelow := h.logs.below
  have hat := h.marks.atWorker
  rw [hpc] at hbelow hat
  exact h.goto (by rw [hpc]; rfl) ⟨hb, hat.2.trans hb⟩ (by simp [Pc.pending]) (by rw [hpc]; rfl) (by rw [hpc]; rfl) hbelow
    fun _ _ _ _ => trivial

theorem clear_inv {i : ℕ} {f : Frame} (h : Inv n target flags s) (hpc : s.pc = .clear i f) :
    Inv n target flags { s with mask := s.mask.clear i, pc := .sub i f } := by
  obtain ⟨hm, hl, hc⟩ := h
  have hlock := (hm.holds i).2 (by rw [hpc]; rfl)
  have hat := hm.atWorker
  have hpending := hm.pending
  have hcounted := hl.counted
  have hsettled := hl.settled
  have hbelow := hl.below
  have hahead := hc.ahead
  rw [hpc] at hat hpending hcounted hsettled hbelow
  simp only [hpc] at hahead
  refine ⟨hm.change (hm.workers i hat.2.2) (by rw [hlock]; decide) rfl ?_ (fun _ _ => rfl) ?_ (by rw [hpc]; rfl) ⟨hat.2.1, ?_⟩ hpending,
    ⟨hl.replay, hl.sound, hcounted, hsettled, hbelow⟩, ⟨hc.le, hahead⟩⟩
  · intro j hj
    simp [SleepMask.bit_clear, hj]
  · intro hb
    rw [hat.2.1] at hb
    cases hb
  · simp [SleepMask.bit_clear]

theorem sub_inv {i : ℕ} {f : Frame} (h : Inv n target flags s) (hpc : s.pc = .sub i f) :
    Inv n target flags { s with word := wrappingSub s.word oneSleeping, subs := s.subs ++ [i], pc := .unlock i f true } := by
  obtain ⟨hm, hl, hc⟩ := h
  have hholds := hm.holds
  have hat := hm.atWorker
  have hpending := hm.pending
  have hcounted := hl.counted
  have hsettled := hl.settled
  have hbelow := hl.below
  have hahead := hc.ahead
  rw [hpc] at hholds hat hpending hcounted hsettled hbelow
  simp only [hpc] at hahead
  refine ⟨⟨hm.marked, hm.agree, hm.workers, hholds, ⟨hat.1, hat.2⟩, hpending⟩, ⟨hl.replay, hl.sound, hcounted, ?_, hbelow⟩, ⟨hc.le, hahead⟩⟩
  dsimp only
  rw [hsettled]
  simp [Pc.unsettled]

/-- the scan lets the mutex of worker `i` go -/
theorem Marks.letGo {i : ℕ} {f : Frame} {woken : Bool} {pc : Pc} {passAt : ℕ} (h : Marks n s) (hpc : s.pc = .unlock i f woken)
    (hholding : pc.holding = none) (hat : ∀ r, AtWorker r pc) (hpending : ∀ j ∈ pc.pending, j < n) :
    Marks n { s with lock := Function.update s.lock i .free, passAt := passAt, pc := pc } := by
  have hold := h.atWorker
  rw [hpc] at hold
  refine ⟨h.marked, ?_, h.workers, ?_, hat _, hpending⟩
  · intro j hj
    by_cases hji : j = i
    · subst hji
      exact hold.2.trans hold.1.symm
    · exact h.agree j (by simpa [hji] using hj)
  · intro j
    have hj := h.holds j
    rw [hpc] at hj
    by_cases hji : j = i
    · subst hji
      simp [hholding]
    · have hne : (Pc.unlock i f woken).holding ≠ some j := by simp [Pc.holding, Ne.symm hji]
      dsimp only
      rw [Function.update_of_ne hji, hholding, hj]
      simp [hne]

theorem unlock_inv {i : ℕ} {f : Frame} (h : Inv n target flags s) (hpc : s.pc = .unlock i f true) :
    Inv n target flags { s with lock := Function.update s.lock i .free, pc := .notify i f } := by
  obtain ⟨hm, hl, hc⟩ := h
  have hpending := hm.pending
  have hcounted := hl.counted
  have hsettled := hl.settled
  have hbelow := hl.below
  have hahead := hc.ahead
  rw [hpc] at hpending hcounted hsettled hbelow
  simp only [hpc] at hahead
  exact ⟨hm.letGo hpc rfl (fun _ => trivial) hpending, ⟨hl.replay, hl.sound, hcounted, hsettled, hbelow⟩, ⟨hc.le, hahead⟩⟩

/-- a stale bit starts a new pass -/
theorem restart_inv {i : ℕ} {f : Frame} (h : Inv n target flags s) (hpc : s.pc = .unlock i f false) :
    Inv n target flags { s with
      lock := Function.update s.lock i .free
      passAt := s.log.length
      pc := if f.woken < target then .load { f with word := 0 } else .returned f.woken } := by
  obtain ⟨hm, hl, hc⟩ := h
  have hcounted := hl.counted
  have hsettled := hl.settled
  have hbelow := hl.below
  rw [hpc] at hcounted hsettled hbelow
  have hlt : f.woken < target := hbelow
  rw [if_pos hlt]
  exact ⟨hm.letGo hpc rfl (fun _ => trivial) (by simp [Pc.pending]), ⟨hl.replay, hl.sound, hcounted, hsettled, hbelow⟩,
    ⟨le_rfl, fun _ _ _ => Or.inr (Nat.zero_le _)⟩⟩

theorem notify_inv {i : ℕ} {f : Frame} (h : Inv n target flags s) (hpc : s.pc = .notify i f) :
    Inv n target flags
      { s with pc := if target ≤ f.woken + 1 then .returned (f.woken + 1) else .bits { f with woken := f.woken + 1 } } := by
  have hpending := h.marks.pending
  have hbelow := h.logs.below
  rw [hpc] at hpending hbelow
  split_ifs with hle
  · refine h.goto (by rw [hpc]; rfl) trivial (by simp [Pc.pending]) (by rw [hpc]; rfl) (by rw [hpc]; rfl) hbelow ?_
    exact fun _ _ _ _ => hle
  · refine h.goto (by rw [hpc]; rfl) trivial hpending (by rw [hpc]; rfl) (by rw [hpc]; rfl) (by simpa [Pc.Below] using hle) ?_
    intro j _ hahead _
    rw [hpc] at hahead
    exact hahead

theorem scanStep_inv (h : Inv n target flags s) (hs : scanStep n target s = some s') : Inv n target flags s' := by
  unfold scanStep at hs
  split at hs
  · next f hpc =>
    split_ifs at hs with hw
    · cases hs
      exact load_inv h hpc
    · cases hs
      exact break_inv h hpc hw
  · next f hpc =>
    split_ifs at hs with hz
    · cases hs
      exact nextWord_inv h hpc hz
    · cases hs
      exact nextBit_inv h hpc hz
  · next i f hpc =>
    split_ifs at hs with hg
    cases hs
    exact enter_inv h hpc hg.2
  · next i f hpc =>
    split_ifs at hs with hb
    · cases hs
      exact wake_inv h hpc hb
    · cases hs
      exact stale_inv h hpc (by simpa using hb)
  · next i f hpc =>
    cases hs
    exact clear_inv h hpc
  · next i f hpc =>
    cases hs
    exact sub_inv h hpc
  · next i f hpc =>
    cases hs
    exact unlock_inv h hpc
  · next i f hpc =>
    cases hs
    exact restart_inv h hpc
  · next i f hpc =>
    cases hs
    exact notify_inv h hpc
  · cases hs

theorem step_inv {a : Act} (h : Inv n target flags s) (hs : step n target s a = some s') : Inv n target flags s' := by
  by_cases ha : a = .scan
  · subst ha
    exact scanStep_inv h hs
  · exact envStep_inv h ha hs

theorem run_inv {acts : List Act} (h : Inv n target flags s) (hr : run n target s acts = some s') : Inv n target flags s' :=
  Machine.run_keeps (fun _ h hs => step_inv h hs) h hr

/-! ## Termination -/

/-- the most steps a pass takes: two for each word and seven for each of its bits, and the last test -/
def passSteps (n : ℕ) : ℕ := 1 + SleepMask.nWords n * 450

/-- the steps from the bits of a word to the end of the pass -/
def Frame.left (n : ℕ) (f : Frame) : ℕ := 7 * f.todo.length + 2 + (SleepMask.nWords n - (f.word + 1)) * 450

/-- the steps to the end of the pass; with a stale bit in hand, those of the next pass too -/
def Pc.left (n : ℕ) : Pc → ℕ
  | .load f => 1 + (SleepMask.nWords n - f.word) * 450
  | .bits f => f.left n
  | .enter _ f => 6 + f.left n
  | .check _ f => 5 + f.left n
  | .clear _ f => 4 + f.left n
  | .sub _ f => 3 + f.left n
  | .unlock _ f true => 2 + f.left n
  | .unlock _ _ false => 1 + passSteps n
  | .notify _ f => 1 + f.left n
  | .returned _ => 0

/-- the loaded bits include one that has been cleared since -/
def St.stale (s : St) : Bool := s.pc.pending.any fun i => !s.mask.bit i

/-- a stale bit is charged to the environment that cleared it: a pass -/
def St.budget (n : ℕ) (s : St) : ℕ := s.pc.left n + if s.stale then passSteps n + 1 else 0

theorem budget_le (n : ℕ) (s : St) : s.budget n ≤ s.pc.left n + (passSteps n + 1) := by
  unfold St.budget
  split_ifs <;> omega

theorem left_le_budget (n : ℕ) (s : St) : s.pc.left n ≤ s.budget n := Nat.le_add_right _ _

theorem budget_of_fresh (h : s.stale = false) : s.budget n = s.pc.left n := by
  simp [St.budget, h]

/-- a step closer to the end of the pass, with no bit gone stale -/
theorem budget_step (hleft : s'.pc.left n + 1 ≤ s.pc.left n)
    (hpending : ∀ i ∈ s'.pc.pending, i ∈ s.pc.pending ∧ s'.mask.bit i = s.mask.bit i) : s'.budget n + 1 ≤ s.budget n := by
  have hstale : s'.stale = true → s.stale = true := by
    intro h
    obtain ⟨i, hi, hb⟩ := List.any_eq_true.1 h
    exact List.any_eq_true.2 ⟨i, (hpending i hi).1, (hpending i hi).2 ▸ hb⟩
  unfold St.budget
  by_cases h' : s'.stale = true
  · rw [if_pos h', if_pos (hstale h')]
    omega
  · rw [if_neg h']
    omega

theorem scanStep_budget (h : Inv n target flags s) (hs : scanStep n target s = some s') : s'.budget n + 1 ≤ s.budget n := by
  unfold scanStep at hs
  split at hs
  · next f hpc =>
    split_ifs at hs with hw
    · cases hs
      rw [budget_of_fresh]
      · refine le_trans ?_ (left_le_budget n s)
        have hlen := length_todo_le { f with bits := s.mask f.word }
        simp only [hpc, Pc.left, Frame.left]
        omega
      · simp only [St.stale, Pc.pending, List.any_eq_false, Bool.not_eq_true, Bool.not_eq_false']
        intro i hi
        exact (mem_todo_load.1 hi).2
    · cases hs
      exact budget_step (by simp [hpc, Pc.left]) (by simp [Pc.pending])
  · next f hpc =>
    split_ifs at hs with hz
    · cases hs
      refine budget_step ?_ (by simp [Pc.pending])
      simp only [hpc, Pc.left, Frame.left]
      omega
    · cases hs
      have hcons := todo_cons hz
      refine budget_step ?_ ?_
      · simp only [hpc, Pc.left, Frame.left, hcons, List.length_cons]
        omega
      · intro i hi
        refine ⟨?_, rfl⟩
        rw [hpc, Pc.pending, hcons]
        exact hi
  · next i f hpc =>
    split_ifs at hs with hg
    cases hs
    exact budget_step (by simp only [hpc, Pc.left]; omega) fun j hj => ⟨by rw [hpc]; exact hj, rfl⟩
  · next i f hpc =>
    split_ifs at hs with hb
    · cases hs
      exact budget_step (by simp only [hpc, Pc.left]; omega) fun j hj => ⟨by rw [hpc]; exact List.mem_cons_of_mem i hj, rfl⟩
    · cases hs
      -- the bit was loaded set and is clear now: the pass is paid for
      have hat := h.marks.atWorker
      rw [hpc] at hat
      have hstale : s.stale = true := by
        refine List.any_eq_true.2 ⟨i, by rw [hpc]; exact List.mem_cons_self, ?_⟩
        rw [hat.2]
        simpa using hb
      rw [budget_of_fresh rfl, St.budget, hstale, if_pos rfl, hpc]
      simp only [Pc.left]
      omega
  · next i f hpc =>
    cases hs
    have hat := h.marks.atWorker
    rw [hpc] at hat
    refine budget_step (by simp only [hpc, Pc.left]; omega) ?_
    intro j hj
    have hji : j ≠ i := fun hji => hat.1 (hji ▸ hj)
    exact ⟨by rw [hpc]; exact hj, by simp [SleepMask.bit_clear, hji]⟩
  · next i f hpc =>
    cases hs
    exact budget_step (by simp only [hpc, Pc.left]; omega) fun j hj => ⟨by rw [hpc]; exact hj, rfl⟩
  · next i f hpc =>
    cases hs
    exact budget_step (by simp only [hpc, Pc.left]; omega) fun j hj => ⟨by rw [hpc]; exact hj, rfl⟩
  · next i f hpc =>
    cases hs
    split_ifs with hlt
    · refine budget_step ?_ (by simp [Pc.pending])
      simp only [hpc, Pc.left, passSteps]
      omega
    · exact budget_step (by simp [hpc, Pc.left]) (by simp [Pc.pending])
  · next i f hpc =>
    cases hs
    split_ifs with hle
    · exact budget_step (by simp [hpc, Pc.left]) (by simp [Pc.pending])
    · refine budget_step ?_ fun j hj => ⟨by rw [hpc]; exact hj, rfl⟩
      simp only [hpc, Pc.left, Frame.left, Frame.todo]
      omega
  · cases hs

theorem envStep_pc {a : Act} (ha : a ≠ .scan) (hs : step n target s a = some s') : s'.pc = s.pc := by
  cases a with
  | scan => exact absurd rfl ha
  | setWord x =>
    cases hs
    rfl
  | acquire i | setBit i | clearBit i | block i | unblock i | release i =>
    simp only [step] at hs
    split_ifs at hs
    cases hs
    rfl

/-- an action of the environment that writes a mask bit or a flag; a mutex that changes hands, or the counter word, is none -/
def Act.isChange : Act → Bool
  | .setBit _ => true
  | .clearBit _ => true
  | .block _ => true
  | .unblock _ => true
  | _ => false

/-- the changes of the environment in a run -/
def changes (acts : List Act) : ℕ := acts.countP Act.isChange

/-- what is no change leaves the mask as it is -/
theorem envStep_mask {a : Act} (ha : a ≠ .scan) (hc : a.isChange = false) (hs : step n target s a = some s') : s'.mask = s.mask := by
  cases a with
  | scan => exact absurd rfl ha
  | setWord x =>
    cases hs
    rfl
  | acquire i | release i =>
    simp only [step] at hs
    split_ifs at hs
    cases hs
    rfl
  | setBit i | clearBit i | block i | unblock i => cases hc

/-- a change of the environment costs the scan at most a pass, and what is no change costs nothing -/
theorem envStep_budget {a : Act} (ha : a ≠ .scan) (hs : step n target s a = some s') :
    s'.budget n ≤ s.budget n + if a.isChange then passSteps n + 1 else 0 := by
  have hpc := envStep_pc ha hs
  cases hc : a.isChange with
  | true =>
    calc s'.budget n ≤ s'.pc.left n + (passSteps n + 1) := budget_le n s'
      _ = s.pc.left n + (passSteps n + 1) := by rw [hpc]
      _ ≤ s.budget n + (passSteps n + 1) := Nat.add_le_add_right (left_le_budget n s) _
  | false =>
    have hmask := envStep_mask ha hc hs
    have hsame : s'.budget n = s.budget n := by rw [St.budget, St.budget, St.stale, St.stale, hpc, hmask]
    exact hsame.le

/-- **the steps of a scan are paid for** by its first pass and one pass for each change of the environment -/
theorem run_budget {acts : List Act} (h : Inv n target flags s) (hr : run n target s acts = some s') :
    acts.count .scan + s'.budget n ≤ s.budget n + changes acts * (passSteps n + 1) := by
  induction acts generalizing s with
  | nil =>
    cases hr
    simp [changes]
  | cons a acts ih =>
    obtain ⟨s1, hs, hr⟩ := Option.bind_eq_some_iff.1 hr
    have hrest := ih (step_inv h hs) hr
    by_cases ha : a = .scan
    · subst ha
      have hstep := scanStep_budget h hs
      have hnone : changes (.scan :: acts) = changes acts := List.countP_cons_of_neg Bool.false_ne_true
      rw [List.count_cons_self, hnone]
      omega
    · have hstep := envStep_budget ha hs
      rw [List.count_cons_of_ne ha, changes, List.countP_cons, Nat.add_mul, ite_mul, Nat.one_mul, Nat.zero_mul]
      rw [changes] at hrest
      omega

/-- only a mutex held by another keeps the scan from its next step -/
theorem Inv.progress (h : Inv n target flags s) (hpc : ∀ w, s.pc ≠ .returned w) :
    (∃ i f, s.pc = .enter i f ∧ s.lock i = .environment) ∨ ∃ s', scanStep n target s = some s' := by
  cases hcase : s.pc with
  | returned w => exact absurd hcase (hpc w)
  | enter i f =>
    have hi : i < n := h.marks.pending i (by rw [hcase]; exact List.mem_cons_self)
    cases hlock : s.lock i with
    | free => exact Or.inr ⟨_, by simp only [scanStep, hcase, hi, hlock, and_self, if_true]; rfl⟩
    | environment => exact Or.inl ⟨i, f, rfl, hlock⟩
    | scan =>
      have hholds := (h.marks.holds i).1 hlock
      rw [hcase] at hholds
      cases hholds
  | load f =>
    refine Or.inr ?_
    simp only [scanStep, hcase]
    split_ifs <;> exact ⟨_, rfl⟩
  | bits f =>
    refine Or.inr ?_
    simp only [scanStep, hcase]
    split_ifs <;> exact ⟨_, rfl⟩
  | check i f =>
    refine Or.inr ?_
    simp only [scanStep, hcase]
    split_ifs <;> exact ⟨_, rfl⟩
  | unlock i f woken => cases woken <;> exact Or.inr ⟨_, by simp only [scanStep, hcase]; rfl⟩
  | clear i f | sub i f | notify i f => exact Or.inr ⟨_, by simp only [scanStep, hcase]; rfl⟩

/-- the scan takes no mutex in the environment's name -/
theorem scanStep_lock {i : ℕ} (hs : scanStep n target s = some s') (hi : s.lock i ≠ .environment) : s'.lock i ≠ .environment := by
  have hupdate : ∀ (j : ℕ) (l : Lock), l ≠ .environment → Function.update s.lock j l i ≠ .environment := by
    intro j l hl
    by_cases hij : i = j
    · subst hij
      simpa using hl
    · simpa [hij] using hi
  unfold scanStep at hs
  split at hs
  · split_ifs at hs <;> cases hs <;> exact hi
  · split_ifs at hs <;> cases hs <;> exact hi
  · split_ifs at hs
    cases hs
    exact hupdate _ _ (by decide)
  · split_ifs at hs <;> cases hs <;> exact hi
  · cases hs
    exact hi
  · cases hs
    exact hi
  · cases hs
    exact hupdate _ _ (by decide)
  · cases hs
    exact hupdate _ _ (by decide)
  · cases hs
    exact hi
  · cases hs

/-- a scan that is left alone with its mutexes free returns, by induction on the budget -/
theorem Inv.returns (h : Inv n target flags s) (hfree : ∀ i, s.lock i ≠ .environment) :
    ∃ k s' w, run n target s (List.replicate k .scan) = some s' ∧ s'.pc = .returned w := by
  generalize hb : s.budget n = b
  induction b using Nat.strong_induction_on generalizing s with
  | h b ih =>
    by_cases hpc : ∃ w, s.pc = .returned w
    · obtain ⟨w, hw⟩ := hpc
      exact ⟨0, s, w, rfl, hw⟩
    · rcases h.progress fun w hw => hpc ⟨w, hw⟩ with ⟨i, f, -, hlock⟩ | ⟨s1, hs⟩
      · exact absurd hlock (hfree i)
      · have hless := scanStep_budget h hs
        obtain ⟨k, s', w, hr, hw⟩ := ih (s1.budget n) (by omega) (scanStep_inv h hs) (fun i => scanStep_lock hs (hfree i)) rfl
        refine ⟨k + 1, s', w, ?_, hw⟩
        rw [List.replicate_succ]
        exact Option.bind_eq_some_iff.2 ⟨s1, hs, hr⟩

theorem scanStep_word (hs : scanStep n target s = some s') : (s'.word = s.word ∧ s'.subs = s.subs) ∨
    ∃ i, s'.word = wrappingSub s.word oneSleeping ∧ s'.subs = s.subs ++ [i] := by
  unfold scanStep at hs
  split at hs
  · split_ifs at hs <;> cases hs <;> exact Or.inl ⟨rfl, rfl⟩
  · split_ifs at hs <;> cases hs <;> exact Or.inl ⟨rfl, rfl⟩
  · split_ifs at hs
    cases hs
    exact Or.inl ⟨rfl, rfl⟩
  · split_ifs at hs <;> cases hs <;> exact Or.inl ⟨rfl, rfl⟩
  · cases hs
    exact Or.inl ⟨rfl, rfl⟩
  · next i f hpc =>
    cases hs
    exact Or.inr ⟨i, rfl, rfl⟩
  · cases hs
    exact Or.inl ⟨rfl, rfl⟩
  · cases hs
    exact Or.inl ⟨rfl, rfl⟩
  · cases hs
    exact Or.inl ⟨rfl, rfl⟩
  · cases hs

end Steps

/-! ## The result -/

/-- what holds of a scan, from the flags it started on -/
structure ScanSpec (n target : ℕ) (flags : ℕ → Bool) (s : St) : Prop where
  /-- the log tells the flags -/
  replay : s.blocked = flagsAfter flags s.log
  atMost : (wakesOf s.log).length ≤ target
  /-- whom it woke was blocked -/
  blocked : ∀ l i l', s.log = l ++ .wakes i :: l' → flagsAfter flags l i = true
  /-- and had blocked again if it had been woken before -/
  again : ∀ l i m l', s.log = l ++ .wakes i :: (m ++ .wakes i :: l') → .blocks i ∈ m
  /-- one unit off the counter for each wake; the last may be due -/
  settled : wakesOf s.log = s.subs ++ s.pc.unsettled
  returned : ∀ woken, s.pc = .returned woken → (wakesOf s.log).length = woken ∧ s.subs = wakesOf s.log
  /-- a scan that comes back short has left nobody who was blocked when its last pass began -/
  leftover : ∀ woken, s.pc = .returned woken → woken < target → ∀ i < n,
    flagsAfter flags (s.log.take s.passAt) i = true → WokenIn i (s.log.drop s.passAt)

theorem Pc.woken_le {target : ℕ} {pc : Pc} (h : pc.Below target) : pc.woken ≤ target := by
  cases pc with
  | unlock i f woken =>
    have hlt : f.woken < target := h
    cases woken
    · exact hlt.le
    · exact hlt
  | load f | bits f | enter i f | check i f => exact Nat.le_of_lt h
  | clear i f | sub i f | notify i f => exact h
  | returned woken => exact h

theorem Inv.spec {n target : ℕ} {flags : ℕ → Bool} {s : St} (h : Inv n target flags s) : ScanSpec n target flags s := by
  refine ⟨h.logs.replay, ?_, h.logs.sound, ?_, h.logs.settled, ?_, ?_⟩
  · rw [h.logs.counted]
    exact Pc.woken_le h.logs.below
  · intro l i m l' hlog
    have hup : flagsAfter flags (l ++ .wakes i :: m) i = true := by
      refine h.logs.sound (l ++ .wakes i :: m) i l' ?_
      rw [hlog]
      simp
    rw [flagsAfter_append] at hup
    refine blocks_mem_of_flag ?_ hup
    simp [Event.apply]
  · intro woken hpc
    have hcounted := h.logs.counted
    have hsettled := h.logs.settled
    rw [hpc] at hcounted hsettled
    exact ⟨hcounted, by rw [hsettled]; exact (List.append_nil _).symm⟩
  · intro woken hpc hlt i hi hflag
    refine (h.covers.ahead i hi hflag).resolve_right ?_
    rw [hpc]
    exact Nat.not_le.2 hlt

/-- **Wake scan.** On every pool within the thread limit, from every mask the protocol allows and for every target, beside any
workers and wakers: the workers have distinct places in the array; a scan wakes at most `target` of them, each of them blocked
at that moment and none twice without it having blocked in between, with one unit off the sleeping counter for each; it takes
at most one pass more than the environment made changes to the bits and flags, is only ever held up by a mutex, and returns when
left alone; and when it returns short, every worker blocked at the start of its last pass was woken by it or by another. -/
theorem wake_scan {n target : ℕ} (hn : n ≤ threadsMax) {s₀ s : St} (h₀ : Start n target s₀) {acts : List Act}
    (hr : run n target s₀ acts = some s) :
    (∀ i < n, ∀ j < n, wordOf i < maskWords ∧ ((wordOf i, bitOf i) = (wordOf j, bitOf j) → i = j)) ∧
    ScanSpec n target s₀.blocked s ∧
    (∀ s', scanStep n target s = some s' → (s'.word = s.word ∧ s'.subs = s.subs) ∨
      ∃ i, s'.word = wrappingSub s.word oneSleeping ∧ s'.subs = s.subs ++ [i]) ∧
    acts.count .scan ≤ (1 + changes acts) * (passSteps n + 1) ∧
    ((∀ w, s.pc ≠ .returned w) →
      (∃ i f, s.pc = .enter i f ∧ s.lock i = .environment) ∨ ∃ s', scanStep n target s = some s') ∧
    ((∀ i, s.lock i ≠ .environment) → ∃ k s' w, run n target s (List.replicate k .scan) = some s' ∧ s'.pc = .returned w) := by
  have hinv := run_inv (start_inv h₀) hr
  refine ⟨?_, hinv.spec, fun s' hs => scanStep_word hs, ?_, hinv.progress, hinv.returns⟩
  · intro i hi j _
    obtain ⟨hword, hwords, hinj⟩ := split_index hn hi j
    exact ⟨hword.trans_le hwords, hinj⟩
  · have hbudget := run_budget (start_inv h₀) hr
    have hstart : s₀.budget n ≤ passSteps n := by
      rw [St.budget, St.stale, h₀.pc, enterScan]
      split_ifs <;> simp_all [Pc.left, Pc.pending, passSteps]
    have hmul : (1 + changes acts) * (passSteps n + 1) = passSteps n + 1 + changes acts * (passSteps n + 1) := by ring
    omega

/-- workers 0 and 2 of three sleep -/
def twoAsleep : St where
  mask := SleepMask.set (SleepMask.set (fun _ => 0#64) 0) 2
  blocked := fun i => decide (i = 0) || decide (i = 2)
  lock := fun _ => .free
  word := 0
  pc := enterScan 1
  log := []
  passAt := 0
  subs := []

/-- worker 0 is woken by another between the load of the word and its check: the scan restarts and wakes worker 2 -/
def staleActs : List Act :=
  [.scan, .scan, .acquire 0, .unblock 0, .clearBit 0, .release 0] ++ List.replicate 11 .scan

theorem wake_scan_stale : ∃ s, run 3 1 twoAsleep staleActs = some s ∧ s.pc = .returned 1 ∧ s.subs = [2] ∧
    s.log = [.unblocks 0, .wakes 2] ∧ ScanSpec 3 1 twoAsleep.blocked s := by
  have hbit : ∀ i, twoAsleep.mask.bit i = (decide (i = 0) || decide (i = 2)) := by
    intro i
    rw [twoAsleep, SleepMask.bit_set, SleepMask.bit_set]
    simp [SleepMask.bit]
  have hstart : Start 3 1 twoAsleep := by
    refine ⟨rfl, fun _ => by simp [twoAsleep], ?_, ?_, ?_, rfl, rfl, rfl⟩
    · intro i hi
      rw [hbit]
      exact hi
    · intro i _
      exact hbit i
    · intro i hi
      rw [hbit, Bool.or_eq_true, decide_eq_true_eq, decide_eq_true_eq] at hi
      omega
  obtain ⟨s, hs, hpc, hsubs, hlog⟩ : ∃ s, run 3 1 twoAsleep staleActs = some s ∧ s.pc = .returned 1 ∧ s.subs = [2] ∧
      s.log = [.unblocks 0, .wakes 2] := ⟨_, rfl, rfl, rfl, rfl⟩
  exact ⟨s, hs, hpc, hsubs, hlog, (wake_scan (by decide) hstart hs).2.1⟩

end YouPipe.WakeScan
