/-
The terminal drain loops (`drain_loop!`, `drain_unordered_with`, `drain_ordered_with` and `run_ordered_collect` in
`state/stream.rs`): burst until nothing is ready, ask whether the channel is closed, block for one item, and again.

The receiver's steps are single channel operations, so senders may send, clone and drop between any two of them. With
`batch_cap = 0` a burst is item by item; otherwise it claims batches of at most `batch_cap`, and a batch may come back short
or empty although items are ready. `try_recv` may report empty at any time; it reports closed only when every sender is gone
and the queue is empty. The async loops are the ones with `batch_cap = 0`.

A sink is what `insert` and `eof` of the template do: the unordered one appends, the ordered one feeds a reorder buffer and
flushes it at the end. A sink that panics has unwound the loop; the model lets the loop run on, with the fault as its sink. The
debug assertions of `verify_ordered_accounting` have no effect in a release build.

Result: `drain_complete`.
-/
import Mathlib.Tactic
import YouPipe.Core.Channel
import YouPipe.Core.Machine
import YouPipe.State.OrderedWindow
import YouPipe.State.Resequence

namespace YouPipe.Drain

open YouPipe.Channel YouPipe.Word YouPipe.Reorder YouPipe.Ordered

/-! ## Model -/

/-- the loop's place: at a batch claim, at the closed test after an empty one, at the `try_recv` behind it, in the item-wise
burst, at the blocking receive, or returned -/
inductive Pc where
  | claim
  | probe
  | tryItem
  | burst
  | anchor
  | returned
deriving DecidableEq, Repr

/-- `insert` and `eof` of the template -/
structure Sink (σ T : Type) where
  insert : σ → T → Except Fault σ
  eof : σ → Except Fault σ

/-- `sent` and `taken` list what went into the channel and what the receiver took out -/
structure St (σ T : Type) where
  chan : Chan T
  pc : Pc
  sink : Except Fault σ
  sent : List T
  taken : List T

variable {σ T : Type}

/-- the head of the loop -/
def top (batchCap : ℕ) : Pc := if 0 < batchCap then .claim else .burst

def init (batchCap cap senders : ℕ) (x : σ) : St σ T := ⟨⟨[], cap, senders, 1⟩, top batchCap, .ok x, [], []⟩

/-- insert the `m` oldest items and go on at `pc` -/
def St.take (k : Sink σ T) (s : St σ T) (m : ℕ) (pc : Pc) : St σ T :=
  { s with
    chan := s.chan.take m
    pc := pc
    sink := s.sink.bind fun x => (s.chan.queue.take m).foldlM k.insert x
    taken := s.taken ++ s.chan.queue.take m }

def St.close (k : Sink σ T) (s : St σ T) : St σ T := { s with pc := .returned, sink := s.sink.bind k.eof }

def St.goto (s : St σ T) (pc : Pc) : St σ T := { s with pc := pc }

/-- a `try_recv` that continues at `ok` with an item; `m = 0` reports empty -/
def tryRecv (k : Sink σ T) (s : St σ T) (m : ℕ) (ok : Pc) : St σ T :=
  if m = 0 then s.goto .anchor
  else if 0 < s.chan.queue.length then s.take k 1 ok
  else if s.chan.senders = 0 then s.close k
  else s.goto .anchor

/-- the receiver's next channel operation; `m` bounds what it yields -/
def recvStep (k : Sink σ T) (batchCap : ℕ) (s : St σ T) (m : ℕ) : Option (St σ T) :=
  match s.pc with
  | .claim =>
    let n := min m (min batchCap s.chan.queue.length)
    some (if n = 0 then s.goto .probe else s.take k n .claim)
  | .probe => some (s.goto (if s.chan.senders = 0 then .tryItem else .anchor))
  | .tryItem => some (tryRecv k s m (top batchCap))
  | .burst => some (tryRecv k s m .burst)
  | .anchor =>
    if 0 < s.chan.queue.length then some (s.take k 1 (top batchCap))
    else if s.chan.senders = 0 then some (s.close k)
    else none
  | .returned => none

inductive Act (T : Type) where
  | send (x : T)
  | cloneSender
  | dropSender
  | recv (m : ℕ)
deriving DecidableEq, Repr

def step (k : Sink σ T) (batchCap : ℕ) (s : St σ T) : Act T → Option (St σ T)
  | .send x =>
    if 0 < s.chan.senders ∧ ¬ s.chan.full then some { s with chan := s.chan.push x, sent := s.sent ++ [x] } else none
  | .cloneSender =>
    if 0 < s.chan.senders then some { s with chan := { s.chan with senders := s.chan.senders + 1 } } else none
  | .dropSender => if 0 < s.chan.senders then some { s with chan := s.chan.dropSender } else none
  | .recv m => recvStep k batchCap s m

def run (k : Sink σ T) (batchCap : ℕ) (s : St σ T) (acts : List (Act T)) : Option (St σ T) := acts.foldlM (step k batchCap) s

variable {α : Type}

/-- the sink of `drain_unordered_with` -/
def unordered : Sink (List α) (ℕ × α) := ⟨fun out o => .ok (out ++ [o.2]), .ok⟩

/-- the sink of `drain_ordered_with`: `insert_into`, and `flush_remaining` at the end -/
def ordered : Sink (ReorderBuffer α × List α) (ℕ × α) :=
  ⟨Reorder.step, fun st => do
    let (b, rest) ← st.1.flushRemaining
    .ok (b, st.2 ++ rest)⟩

/-- how a collector sizes its window -/
inductive Sizing where
  | auto (n inFlight : ℕ)
  | fixed (n window : ℕ)
  | openFor (expected : ℕ)
deriving DecidableEq, Repr

def Sizing.window : Sizing → OrderedWindow
  | .auto n inFlight => Ordered.auto n inFlight
  | .fixed n window => Ordered.fixed n window
  | .openFor expected => Ordered.openFor expected

/-! ## Invariant -/

/-- what was sent is what was taken and what is queued; the sink has been fed exactly what was taken, and was closed only
when the channel was -/
structure Inv (k : Sink σ T) (x0 : σ) (s : St σ T) : Prop where
  fifo : s.sent = s.taken ++ s.chan.queue
  feeding : s.pc ≠ .returned → s.sink = s.taken.foldlM k.insert x0
  closed : s.pc = .returned → s.chan.senders = 0 ∧ s.chan.queue = [] ∧ s.sink = (s.sent.foldlM k.insert x0).bind k.eof

section Steps

variable {k : Sink σ T} {batchCap : ℕ} {x0 : σ} {s s' : St σ T}

theorem init_inv (k : Sink σ T) (batchCap cap senders : ℕ) (x0 : σ) : Inv k x0 (init batchCap cap senders x0) where
  fifo := rfl
  feeding := fun _ => rfl
  closed := by
    intro h
    unfold init top at h
    split_ifs at h

theorem Inv.goto (h : Inv k x0 s) (hpc : s.pc ≠ .returned) {pc : Pc} (hne : pc ≠ .returned) : Inv k x0 (s.goto pc) :=
  ⟨h.fifo, fun _ => h.feeding hpc, fun hr => absurd hr hne⟩

theorem Inv.take (h : Inv k x0 s) (hpc : s.pc ≠ .returned) (m : ℕ) {pc : Pc} (hne : pc ≠ .returned) :
    Inv k x0 (s.take k m pc) where
  fifo := by
    show s.sent = s.taken ++ s.chan.queue.take m ++ s.chan.queue.drop m
    rw [List.append_assoc, List.take_append_drop, h.fifo]
  feeding := by
    intro _
    show s.sink.bind _ = (s.taken ++ s.chan.queue.take m).foldlM k.insert x0
    rw [h.feeding hpc, List.foldlM_append]
    rfl
  closed := fun hr => absurd hr hne

theorem Inv.close (h : Inv k x0 s) (hpc : s.pc ≠ .returned) (hs : s.chan.senders = 0) (hq : s.chan.queue = []) :
    Inv k x0 (s.close k) where
  fifo := h.fifo
  feeding := fun hne => absurd rfl hne
  closed := by
    intro _
    refine ⟨hs, hq, ?_⟩
    show s.sink.bind k.eof = (s.sent.foldlM k.insert x0).bind k.eof
    rw [h.feeding hpc, h.fifo, hq, List.append_nil]

theorem top_ne_returned (batchCap : ℕ) : top batchCap ≠ .returned := by
  unfold top
  split_ifs <;> simp

/-- how far a place is from the blocking receive -/
def Pc.rank : Pc → ℕ
  | .claim => 4
  | .probe => 3
  | .tryItem | .burst => 2
  | .anchor => 1
  | .returned => 0

theorem tryRecv_cases (k : Sink σ T) (s : St σ T) (m : ℕ) (ok : Pc) :
    tryRecv k s m ok = s.goto .anchor ∨ (tryRecv k s m ok = s.take k 1 ok ∧ 0 < s.chan.queue.length) ∨
      (tryRecv k s m ok = s.close k ∧ s.chan.senders = 0 ∧ s.chan.queue = []) := by
  unfold tryRecv
  split_ifs with hm hq hs
  · exact .inl rfl
  · exact .inr (.inl ⟨rfl, hq⟩)
  · exact .inr (.inr ⟨rfl, hs, List.eq_nil_of_length_eq_zero (Nat.eq_zero_of_not_pos hq)⟩)
  · exact .inl rfl

/-- what a step of the loop does: it goes on to a place nearer to the blocking receive, takes some items, or returns from a
closed and empty channel -/
inductive RecvCase (k : Sink σ T) (s s' : St σ T) : Prop where
  | goto (pc : Pc) (hs : s' = s.goto pc) (hpc : pc ≠ .returned) (hlt : pc.rank < s.pc.rank)
  | take (c : ℕ) (pc : Pc) (hs : s' = s.take k c pc) (hpos : 0 < c) (hle : c ≤ s.chan.queue.length) (hpc : pc ≠ .returned)
  | close (hs : s' = s.close k) (hsend : s.chan.senders = 0) (hq : s.chan.queue = [])

theorem recvStep_cases {m : ℕ} (hs : recvStep k batchCap s m = some s') : s.pc ≠ .returned ∧ RecvCase k s s' := by
  have htry : ∀ {ok : Pc}, ok ≠ .returned → s.pc.rank = 2 → RecvCase k s (tryRecv k s m ok) := by
    intro ok hok hrank
    obtain h | ⟨h, hq⟩ | ⟨h, hsend, hq⟩ := tryRecv_cases k s m ok
    · exact .goto .anchor h (by simp) (by rw [hrank]; decide)
    · exact .take 1 ok h Nat.one_pos hq hok
    · exact .close h hsend hq
  unfold recvStep at hs
  split at hs
  case h_1 hpc =>
    cases hs
    refine ⟨by simp [hpc], ?_⟩
    split_ifs with hn
    · exact .goto .probe rfl (by simp) (by rw [hpc]; decide)
    · exact .take _ .claim rfl (Nat.pos_of_ne_zero hn) (by omega) (by simp)
  case h_2 hpc =>
    cases hs
    refine ⟨by simp [hpc], .goto _ rfl ?_ ?_⟩
    · split_ifs <;> simp
    · rw [hpc]
      split_ifs <;> decide
  case h_3 hpc =>
    cases hs
    exact ⟨by simp [hpc], htry (top_ne_returned batchCap) (by rw [hpc]; rfl)⟩
  case h_4 hpc =>
    cases hs
    exact ⟨by simp [hpc], htry (by simp) (by rw [hpc]; rfl)⟩
  case h_5 hpc =>
    split_ifs at hs with hq hc
    · cases hs
      exact ⟨by simp [hpc], .take 1 _ rfl Nat.one_pos hq (top_ne_returned batchCap)⟩
    · cases hs
      exact ⟨by simp [hpc], .close rfl hc (List.eq_nil_of_length_eq_zero (Nat.eq_zero_of_not_pos hq))⟩
  case h_6 => cases hs

/-- the blocking receive waits only on an open and empty channel -/
theorem waits_of_anchor {m : ℕ} (hpc : s.pc = .anchor) (hs : recvStep k batchCap s m = none) :
    s.chan.queue = [] ∧ s.chan.senders ≠ 0 := by
  simp only [recvStep, hpc] at hs
  by_cases hq : 0 < s.chan.queue.length
  · rw [if_pos hq] at hs
    cases hs
  · rw [if_neg hq] at hs
    split_ifs at hs with hc
    exact ⟨List.eq_nil_of_length_eq_zero (Nat.eq_zero_of_not_pos hq), hc⟩

theorem recvStep_inv (h : Inv k x0 s) {m : ℕ} (hs : recvStep k batchCap s m = some s') : Inv k x0 s' := by
  obtain ⟨hret, hcase⟩ := recvStep_cases hs
  cases hcase with
  | goto pc hs hpc hlt =>
    subst hs
    exact h.goto hret hpc
  | take c pc hs hpos hle hpc =>
    subst hs
    exact h.take hret c hpc
  | close hs hsend hq =>
    subst hs
    exact h.close hret hsend hq

theorem step_inv {a : Act T} (h : Inv k x0 s) (hs : step k batchCap s a = some s') : Inv k x0 s' := by
  cases a with
  | send x =>
    simp only [step] at hs
    split_ifs at hs with hx
    cases hs
    refine ⟨?_, h.feeding, fun hr => absurd (h.closed hr).1 (Nat.ne_of_gt hx.1)⟩
    show s.sent ++ [x] = s.taken ++ (s.chan.queue ++ [x])
    rw [h.fifo, List.append_assoc]
  | cloneSender =>
    simp only [step] at hs
    split_ifs at hs with hx
    cases hs
    exact ⟨h.fifo, h.feeding, fun hr => absurd (h.closed hr).1 (Nat.ne_of_gt hx)⟩
  | dropSender =>
    simp only [step] at hs
    split_ifs at hs with hx
    cases hs
    exact ⟨h.fifo, h.feeding, fun hr => absurd (h.closed hr).1 (Nat.ne_of_gt hx)⟩
  | recv m => exact recvStep_inv h hs

theorem run_inv {acts : List (Act T)} (h : Inv k x0 s) (hr : run k batchCap s acts = some s') : Inv k x0 s' :=
  Machine.run_keeps (fun _ h hs => step_inv h hs) h hr

/-! ## Returning -/

/-- bounds the receiver's remaining steps once the senders are gone -/
def St.measure (s : St σ T) : ℕ := 4 * s.chan.queue.length + s.pc.rank

theorem rank_le (pc : Pc) : pc.rank ≤ 4 := by cases pc <;> simp [Pc.rank]

theorem take_measure {m : ℕ} (hm : 0 < m) (hq : 0 < s.chan.queue.length) (hpc : 0 < s.pc.rank) (pc : Pc) :
    (s.take k m pc).measure < s.measure := by
  have := rank_le pc
  simp only [St.measure, St.take, Chan.take_queue, List.length_drop]
  omega

theorem tryRecv_measure (hc : s.chan.senders = 0) (hpc : s.pc.rank = 2) (m : ℕ) (ok : Pc) :
    (tryRecv k s m ok).measure < s.measure := by
  unfold tryRecv
  split_ifs with hm hq
  · show 4 * s.chan.queue.length + 1 < 4 * s.chan.queue.length + s.pc.rank
    omega
  · exact take_measure Nat.one_pos hq (by omega) ok
  · show 4 * s.chan.queue.length + 0 < 4 * s.chan.queue.length + s.pc.rank
    omega

/-- with the senders gone every receive makes progress, whatever it yields -/
theorem recvStep_measure (hc : s.chan.senders = 0) (hpc : s.pc ≠ .returned) (m : ℕ) :
    ∃ s', recvStep k batchCap s m = some s' ∧ s'.chan.senders = 0 ∧ s'.measure < s.measure := by
  have htry : ∀ ok, (tryRecv k s m ok).chan.senders = 0 := by
    intro ok
    unfold tryRecv
    split_ifs <;> exact hc
  unfold recvStep
  split
  case h_1 hp =>
    by_cases hn : min m (min batchCap s.chan.queue.length) = 0
    · refine ⟨s.goto .probe, congrArg some (if_pos hn), hc, ?_⟩
      simp [St.measure, St.goto, Pc.rank, hp]
    · refine ⟨s.take k (min m (min batchCap s.chan.queue.length)) .claim, congrArg some (if_neg hn), hc, ?_⟩
      exact take_measure (Nat.pos_of_ne_zero hn) (by omega) (by simp [hp, Pc.rank]) _
  case h_2 hp =>
    refine ⟨_, rfl, hc, ?_⟩
    simp [St.measure, St.goto, Pc.rank, hp, hc]
  case h_3 hp => exact ⟨_, rfl, htry _, tryRecv_measure hc (by simp [hp, Pc.rank]) m _⟩
  case h_4 hp => exact ⟨_, rfl, htry _, tryRecv_measure hc (by simp [hp, Pc.rank]) m _⟩
  case h_5 hp =>
    by_cases hq : 0 < s.chan.queue.length
    · exact ⟨_, if_pos hq, hc, take_measure Nat.one_pos hq (by simp [hp, Pc.rank]) _⟩
    · refine ⟨s.close k, by rw [if_neg hq, if_pos hc], hc, ?_⟩
      simp [St.measure, St.close, Pc.rank, hp]
  case h_6 hp => exact absurd hp hpc

/-- the receiver alone brings the loop to its end, however its receives turn out -/
def Returns (k : Sink σ T) (batchCap : ℕ) (s : St σ T) : Prop :=
  ∀ ms : List ℕ, s.measure ≤ ms.length →
    ∃ j s', run k batchCap s ((ms.take j).map .recv) = some s' ∧ s'.pc = .returned

theorem returns_of_closed (hc : s.chan.senders = 0) : Returns k batchCap s := by
  intro ms hlen
  induction ms generalizing s with
  | nil =>
    refine ⟨0, s, rfl, ?_⟩
    have h0 : s.pc.rank = 0 := by
      simp only [St.measure, List.length_nil] at hlen
      omega
    cases hp : s.pc <;> simp_all [Pc.rank]
  | cons m ms ih =>
    by_cases hpc : s.pc = .returned
    · exact ⟨0, s, rfl, hpc⟩
    · obtain ⟨s1, hs, hc1, hlt⟩ : ∃ s1, recvStep k batchCap s m = some s1 ∧ s1.chan.senders = 0 ∧ s1.measure < s.measure :=
        recvStep_measure hc hpc m
      obtain ⟨j, s', hr, hret⟩ := ih hc1 (by simp only [List.length_cons] at hlen; omega)
      refine ⟨j + 1, s', ?_, hret⟩
      rw [List.take_succ_cons, List.map_cons]
      exact Option.bind_eq_some_iff.2 ⟨s1, hs, hr⟩

end Steps

/-! ## The two sinks -/

theorem unordered_fold (l : List (ℕ × α)) (out : List α) : l.foldlM unordered.insert out = .ok (out ++ l.map Prod.snd) := by
  induction l generalizing out with
  | nil => simp [pure, Except.pure]
  | cons o l ih =>
    rw [List.foldlM_cons]
    show l.foldlM unordered.insert (out ++ [o.2]) = _
    rw [ih, List.map_cons, List.append_assoc]
    rfl

theorem nextPowerOfTwo_le (n : ℕ) : nextPowerOfTwo n ≤ 2 ^ 63 := by
  obtain ⟨k, hk, hpow | hzero⟩ := nextPowerOfTwo_pow_or_zero n
  · rw [hpow]
    exact Nat.pow_le_pow_right (by norm_num) hk
  · rw [hzero]
    exact Nat.zero_le _

/-- every window a collector builds fits the word -/
theorem Sizing.initial_le (z : Sizing) : z.window.initial ≤ 2 ^ 63 := by
  cases z with
  | auto n inFlight => exact (min_le_left _ _).trans (nextPowerOfTwo_le _)
  | fixed n window => exact nextPowerOfTwo_le _
  | openFor expected => exact (min_le_right _ _).trans (by norm_num)

/-- distinct seqs leave room below `u64::MAX` -/
theorem length_lt_of_seqs {l : List (ℕ × α)} (hnd : (l.map Prod.fst).Nodup) (hsmall : ∀ o ∈ l, o.1 + 1 < maxVal) :
    l.length < maxVal := by
  have hsub : l.map Prod.fst ⊆ List.range (maxVal - 1) := by
    intro x hx
    obtain ⟨o, ho, rfl⟩ := List.mem_map.1 hx
    have := hsmall o ho
    exact List.mem_range.2 (by omega)
  have hle := (List.subperm_of_subset hnd hsub).length_le
  rw [List.length_map, List.length_range] at hle
  have : 0 < maxVal := by decide
  omega

/-- a drain panics only when its buffer outgrows what a `Vec` can hold -/
theorem outgrown_of_panic (size : SlotSize) (z : Sizing) {l : List (ℕ × α)} (hnd : (l.map Prod.fst).Nodup)
    (hsmall : ∀ o ∈ l, o.1 + 1 < maxVal) (hpan : Reorder.run (z.window.buffer size) l = .error .capacityOverflow) :
    Outgrown size z.window.initial (z.window.buffer size) l := by
  intro k hk hfit hwin
  have h0 : Held (z.window.buffer size : ReorderBuffer α) [] [] [] [] [] :=
    withMaxInner_held size _ z.initial_le (some z.window.max)
  have hsmall' : ∀ o ∈ l, o.1 < maxVal := fun o ho => by have := hsmall o ho; omega
  have hlen := length_lt_of_seqs hnd hsmall
  rcases Nat.le_total (2 ^ k) (z.window.buffer size : ReorderBuffer α).maxCapacity with hle | hge
  · have hwide : Windowed (z.window.buffer size : ReorderBuffer α).maxCapacity (z.window.buffer size) l :=
      fun i hi o ho st hst => (hwin i hi o ho st hst).trans_le (Nat.add_le_add_left hle _)
    exact outgrown_of_window z.initial_le hnd hsmall' hlen hwide hpan k hk hfit hwin
  · exact absurd ((Nat.mul_le_mul_right _ hge).trans hfit) (Nat.not_le_of_lt (h0.toSplit.over hnd hsmall' hlen hpan))

/-- what an ordered drain that does not panic ends with: increasing in seq, and complete up to the counted drops -/
theorem ordered_end_of_run (size : SlotSize) (z : Sizing) {l : List (ℕ × α)} (hnd : (l.map Prod.fst).Nodup)
    (hsmall : ∀ o ∈ l, o.1 + 1 < maxVal) (hno : Reorder.run (z.window.buffer size) l ≠ .error .capacityOverflow) :
    ∃ (b : ReorderBuffer α) (out : List (ℕ × α)) (ev : List (ℕ × α)),
      (l.foldlM ordered.insert (z.window.buffer size, [])).bind ordered.eof = .ok (b, out.map Prod.snd)
        ∧ (out.map Prod.fst).Pairwise (· < ·) ∧ l.Perm (out ++ ev) ∧ ev.length = b.dropped := by
  obtain ⟨b, b', out, rest, srt, ev, hrun, hfl, hout, hpw, hperm, hdrop⟩ := run_increasing size z.initial_le
    (some z.window.max) hnd (fun o ho => by have := hsmall o ho; omega) (length_lt_of_seqs hnd hsmall) hno
  refine ⟨b', srt, ev, ?_, hpw, hperm, hdrop⟩
  show (Reorder.run (z.window.buffer size) l).bind _ = _
  rw [show Reorder.run (z.window.buffer size) l = .ok (b, out) from hrun]
  show (b.flushRemaining >>= _) = _
  rw [hfl, ← hout]
  rfl

/-- what an ordered drain ends with -/
theorem ordered_end (size : SlotSize) (z : Sizing) {l : List (ℕ × α)} (hnd : (l.map Prod.fst).Nodup)
    (hsmall : ∀ o ∈ l, o.1 + 1 < maxVal) :
    (∃ (b : ReorderBuffer α) (out : List (ℕ × α)) (ev : List (ℕ × α)),
      (l.foldlM ordered.insert (z.window.buffer size, [])).bind ordered.eof = .ok (b, out.map Prod.snd)
        ∧ (out.map Prod.fst).Pairwise (· < ·) ∧ l.Perm (out ++ ev) ∧ ev.length = b.dropped) ∨
      ((l.foldlM ordered.insert (z.window.buffer size, [])).bind ordered.eof = .error .capacityOverflow
        ∧ Outgrown size z.window.initial (z.window.buffer size) l) := by
  by_cases hpan : Reorder.run (z.window.buffer size) l = .error .capacityOverflow
  · refine .inr ⟨?_, outgrown_of_panic size z hnd hsmall hpan⟩
    show (Reorder.run (z.window.buffer size) l).bind _ = _
    rw [hpan]
    rfl
  · exact .inl (ordered_end_of_run size z hnd hsmall hpan)

/-- the flush at the end drops nothing -/
theorem ordered_eof_dropped {st st' : ReorderBuffer α × List α} (h : ordered.eof st = .ok st') :
    st'.1.dropped = st.1.dropped := by
  obtain ⟨⟨b, rest⟩, hfl, heq⟩ := ok_of_bind h
  obtain ⟨out, -, hout⟩ := ok_of_bind hfl
  cases hout
  cases heq
  rfl

/-- under the automatic window a drain of all of `0..n-1` ends with everything, in order -/
theorem ordered_auto_end (size : SlotSize) {n : ℕ} (hn : n ≤ 2 ^ 63) (inFlight : ℕ) {l : List (ℕ × α)}
    (hperm : (l.map Prod.fst).Perm (List.range n)) :
    (∃ (b : ReorderBuffer α) (em : List (ℕ × α)),
      (l.foldlM ordered.insert ((auto n inFlight).buffer size, [])).bind ordered.eof = .ok (b, em.map Prod.snd)
        ∧ em.Perm l ∧ em.map Prod.fst = List.range n) ∨
      (isizeMax < nextPowerOfTwo (max n 1) * size.bytes
        ∧ (l.foldlM ordered.insert ((auto n inFlight).buffer size, [])).bind ordered.eof = .error .capacityOverflow) := by
  rcases run_auto size hn inFlight hperm with ⟨b, out, em, h, hrun, hh⟩ | ⟨hover, hpan⟩
  · obtain ⟨-, hpe, hfst⟩ := complete_of_held hh hperm
    have hnil : h = [] := by
      have hlen := hh.split.length_eq
      simp only [List.length_append, List.length_nil, hpe.length_eq] at hlen
      exact List.eq_nil_of_length_eq_zero (by omega)
    subst hnil
    obtain ⟨b', rest, hfl, hrest, -, -⟩ := flushRemaining_of_live hh.core.live hh.core.nodup
    obtain rfl := hrest.eq_nil
    refine .inl ⟨b', em, ?_, hpe, hfst⟩
    show (Reorder.run ((auto n inFlight).buffer size) l).bind _ = _
    rw [hrun]
    show (b.flushRemaining >>= _) = _
    rw [hfl, hh.out]
    show Except.ok (b', em.map Prod.snd ++ []) = _
    rw [List.append_nil]
  · refine .inr ⟨hover, ?_⟩
    show (Reorder.run ((auto n inFlight).buffer size) l).bind _ = _
    rw [hpan]
    rfl

/-! ## Result -/

/-- a state of an unordered drain -/
def UnorderedRun (batchCap : ℕ) (s : St (List α) (ℕ × α)) : Prop :=
  ∃ cap senders acts, run unordered batchCap (init batchCap cap senders []) acts = some s

/-- a state of an ordered drain with the window `z` -/
def OrderedRun (size : SlotSize) (z : Sizing) (batchCap : ℕ) (s : St (ReorderBuffer α × List α) (ℕ × α)) : Prop :=
  ∃ cap senders acts, run ordered batchCap (init batchCap cap senders (z.window.buffer size, [])) acts = some s

/-- seqs are handed out once each, well below `u64::MAX` -/
def Tagged (l : List (ℕ × α)) : Prop := (l.map Prod.fst).Nodup ∧ ∀ o ∈ l, o.1 + 1 < maxVal

/-- **the drains lose nothing, whatever the batch size**. The sink of an unordered drain has a prefix of what was sent, in
channel order, and all of it when the loop returns; an ordered drain that returns has handed over the sent items in increasing
seq except for the ones its buffer counted as dropped, unless it panicked because the items outgrew what a `Vec` can hold. Both
return only at end of stream, and do return once the senders are gone. What a drain returns with depends only on what was sent:
on the list for any two batch sizes and, without drops, for an ordered drain on its items alone. -/
theorem drain_complete :
    (∀ (batchCap : ℕ) (s : St (List α) (ℕ × α)), UnorderedRun batchCap s →
      (∃ out, s.sink = .ok out ∧ out <+: s.sent.map Prod.snd)
      ∧ (s.pc = .returned → s.chan.senders = 0 ∧ s.chan.queue = [] ∧ s.sink = .ok (s.sent.map Prod.snd))
      ∧ (s.chan.senders = 0 → Returns unordered batchCap s))
    ∧ (∀ (size : SlotSize) (z : Sizing) (batchCap : ℕ) (s : St (ReorderBuffer α × List α) (ℕ × α)),
      OrderedRun size z batchCap s →
      (s.pc = .returned → s.chan.senders = 0 ∧ s.chan.queue = [] ∧
        (Tagged s.sent → (∃ (b : ReorderBuffer α) (out ev : List (ℕ × α)), s.sink = .ok (b, out.map Prod.snd)
          ∧ (out.map Prod.fst).Pairwise (· < ·) ∧ s.sent.Perm (out ++ ev) ∧ ev.length = b.dropped)
          ∨ (s.sink = .error .capacityOverflow ∧ Outgrown size z.window.initial (z.window.buffer size) s.sent)))
      ∧ (s.chan.senders = 0 → Returns ordered batchCap s))
    ∧ (∀ (batchCap batchCap' : ℕ) (s s' : St (List α) (ℕ × α)), UnorderedRun batchCap s → UnorderedRun batchCap' s' →
      s.pc = .returned → s'.pc = .returned → s.sent = s'.sent → s.sink = s'.sink)
    ∧ (∀ (size : SlotSize) (z : Sizing) (batchCap batchCap' : ℕ) (s s' : St (ReorderBuffer α × List α) (ℕ × α)),
      OrderedRun size z batchCap s → OrderedRun size z batchCap' s' → s.pc = .returned → s'.pc = .returned →
      (s.sent = s'.sent → s.sink = s'.sink)
      ∧ (Tagged s.sent → s.sent.Perm s'.sent → ∀ b out b' out', s.sink = .ok (b, out) → s'.sink = .ok (b', out') →
        b.dropped = 0 → b'.dropped = 0 → out = out')) := by
  have hunordered : ∀ {batchCap : ℕ} {s : St (List α) (ℕ × α)}, UnorderedRun batchCap s → Inv unordered [] s := by
    rintro batchCap s ⟨cap, senders, acts, hr⟩
    exact run_inv (init_inv _ _ _ _ _) hr
  have hordered : ∀ {size : SlotSize} {z : Sizing} {batchCap : ℕ} {s : St (ReorderBuffer α × List α) (ℕ × α)},
      OrderedRun size z batchCap s → Inv ordered (z.window.buffer size, []) s := by
    rintro size z batchCap s ⟨cap, senders, acts, hr⟩
    exact run_inv (init_inv _ _ _ _ _) hr
  have hend : ∀ {s : St (List α) (ℕ × α)}, Inv unordered [] s → s.pc = .returned →
      s.sink = .ok (s.sent.map Prod.snd) := by
    intro s h hret
    rw [(h.closed hret).2.2, unordered_fold]
    rfl
  have hsorted : ∀ {size : SlotSize} {z : Sizing} {s : St (ReorderBuffer α × List α) (ℕ × α)},
      Inv ordered (z.window.buffer size, []) s → s.pc = .returned → Tagged s.sent →
      (∃ (b : ReorderBuffer α) (out ev : List (ℕ × α)), s.sink = .ok (b, out.map Prod.snd)
        ∧ (out.map Prod.fst).Pairwise (· < ·) ∧ s.sent.Perm (out ++ ev) ∧ ev.length = b.dropped)
        ∨ (s.sink = .error .capacityOverflow ∧ Outgrown size z.window.initial (z.window.buffer size) s.sent) := by
    intro size z s h hret htag
    rw [(h.closed hret).2.2]
    exact ordered_end size z htag.1 htag.2
  refine ⟨?_, ?_, ?_, ?_⟩
  · intro batchCap s hs
    have h := hunordered hs
    refine ⟨?_, fun hret => ⟨(h.closed hret).1, (h.closed hret).2.1, hend h hret⟩, returns_of_closed⟩
    by_cases hret : s.pc = .returned
    · exact ⟨_, hend h hret, List.prefix_refl _⟩
    · refine ⟨s.taken.map Prod.snd, by rw [h.feeding hret, unordered_fold]; rfl, ?_⟩
      rw [h.fifo, List.map_append]
      exact List.prefix_append _ _
  · intro size z batchCap s hs
    have h := hordered hs
    exact ⟨fun hret => ⟨(h.closed hret).1, (h.closed hret).2.1, hsorted h hret⟩, returns_of_closed⟩
  · intro batchCap batchCap' s s' hs hs' hret hret' hsent
    rw [hend (hunordered hs) hret, hend (hunordered hs') hret', hsent]
  · intro size z batchCap batchCap' s s' hs hs' hret hret'
    refine ⟨fun hsent => ?_, fun htag hperm b out b' out' hb hb' hdrop hdrop' => ?_⟩
    · rw [((hordered hs).closed hret).2.2, ((hordered hs').closed hret').2.2, hsent]
    · have htag' : Tagged s'.sent :=
        ⟨((hperm.map Prod.fst).nodup_iff).1 htag.1, fun o ho => htag.2 o (hperm.mem_iff.2 ho)⟩
      obtain ⟨c, l, ev, hc, hl, hlp, hev⟩ := (hsorted (hordered hs) hret htag).resolve_right (by simp [hb])
      obtain ⟨c', l', ev', hc', hl', hlp', hev'⟩ := (hsorted (hordered hs') hret' htag').resolve_right (by simp [hb'])
      rw [hb] at hc
      rw [hb'] at hc'
      cases hc
      cases hc'
      rw [hdrop, List.length_eq_zero_iff] at hev
      rw [hdrop', List.length_eq_zero_iff] at hev'
      rw [hev, List.append_nil] at hlp
      rw [hev', List.append_nil] at hlp'
      have hll : l.Perm l' := (hlp.symm.trans hperm).trans hlp'
      rw [List.pairwise_map] at hl hl'
      have heq : l = l' := hll.eq_of_pairwise (fun p q _ _ hpq hqp => absurd hpq (Nat.lt_asymm hqp)) hl hl'
      rw [heq]

/-- a batch of two, an empty claim on an open channel that is closed before the probe, a straggler behind it, and the end -/
def straggler : List (Act (ℕ × ℕ)) :=
  [.send (1, 10), .send (0, 0), .recv 5, .send (2, 20), .recv 0, .dropSender, .recv 0, .recv 1, .recv 3, .recv 0, .recv 1]

/-- the run of `straggler` with batches of two returns with the three items in order -/
theorem drain_complete_straggler :
    ∃ s, OrderedRun wordSlot (.auto 3 0) 2 s ∧ s.pc = .returned ∧ s.chan.senders = 0 ∧ s.chan.queue = []
      ∧ ∃ (b : ReorderBuffer ℕ) (out ev : List (ℕ × ℕ)), s.sink = .ok (b, out.map Prod.snd)
        ∧ (out.map Prod.fst).Pairwise (· < ·) ∧ s.sent.Perm (out ++ ev) ∧ ev.length = b.dropped := by
  have hend : (run ordered 2 (init 2 4 1 ((Sizing.auto 3 0).window.buffer wordSlot, [])) straggler).map
      (fun s => (s.pc, s.sent)) = some (.returned, [(1, 10), (0, 0), (2, 20)]) := by decide
  obtain ⟨s, hs, heq⟩ := Option.map_eq_some_iff.1 hend
  have hpc : s.pc = .returned := congrArg Prod.fst heq
  have hsent : s.sent = [(1, 10), (0, 0), (2, 20)] := congrArg Prod.snd heq
  have hrun : OrderedRun wordSlot (.auto 3 0) 2 s := ⟨4, 1, straggler, hs⟩
  have h := (drain_complete.2.1 wordSlot (.auto 3 0) 2 s hrun).1 hpc
  refine ⟨s, hrun, hpc, h.1, h.2.1, (h.2.2 (by rw [hsent]; unfold Tagged; decide)).resolve_right ?_⟩
  -- the three arrivals stay within four slots
  rintro ⟨-, hout⟩
  rw [hsent] at hout
  exact hout 2 (by decide) (by decide) (by decide)

end YouPipe.Drain
