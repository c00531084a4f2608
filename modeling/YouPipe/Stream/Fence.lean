/-
Fences between streaming stages (`FenceBarrier` in `state/fence.rs`, `fence_batch_send` and `forward_fenced` in
`builder/typed/stream.rs`). A fence collects items and releases them as batches; the vector of a released batch comes back
through `reuse` and becomes the next buffer. Which of two vectors is kept is decided by their capacities, so a vector is its items
and its capacity here, and the allocator is the other party: it chooses every capacity.

The forwarder claims runs of items from the middle channel, pushes each through the fence and sends what the fence releases, item
by item or as a batch; when the channel is closed it sends what is left. The channels behind it answer through a `Link`.

(1) `run_conserves`: over any calls, what was released and what is buffered is, in this order, what was pushed and handed back, and
    the spare is empty. `run_chunks`, `run_barrier`: what a push releases.
(2) `fence_forwards`: on an open channel and without a token the forwarder sends its input, in order, whatever the claims and the
    send mode; a hard barrier sends nothing as long as claims arrive.
-/
import Mathlib.Tactic
import YouPipe.Stream.Chain
import YouPipe.Stream.Outputs

namespace YouPipe.Fence

open YouPipe.RawVec YouPipe.Handoff YouPipe.Outputs
open YouPipe.Stream (FenceMode)

/-! ## Vectors -/

/-- the capacity the allocator gives to a vector made for `n` items, and to one of capacity `c` that has to hold `n` -/
structure Allocator where
  withCapacity : ℕ → ℕ
  grow : ℕ → ℕ → ℕ

structure Vec (T : Type) where
  items : List T
  capacity : ℕ
deriving DecidableEq, Repr

variable {T : Type}

namespace Vec

def withCapacity (alloc : Allocator) (n : ℕ) : Vec T := ⟨[], alloc.withCapacity n⟩

/-- `push` and the receiving side of `append` -/
def extend (alloc : Allocator) (v : Vec T) (xs : List T) : Vec T :=
  ⟨v.items ++ xs, if v.items.length + xs.length ≤ v.capacity then v.capacity else alloc.grow v.capacity (v.items.length + xs.length)⟩

/-- the giving side of `append`, or `drain(..)`: the allocation stays -/
def drain (v : Vec T) : Vec T := ⟨[], v.capacity⟩

end Vec

/-! ## The barrier -/

structure FenceBarrier (T : Type) where
  chunkSize : Option ℕ
  buffer : Vec T
  spare : Option (Vec T)
deriving DecidableEq, Repr

namespace FenceBarrier

variable (alloc : Allocator)

def new (mode : FenceMode) : FenceBarrier T := ⟨mode.chunkSize, Vec.withCapacity alloc 0, none⟩

def withCapacity (mode : FenceMode) (capacity : ℕ) : FenceBarrier T := ⟨mode.chunkSize, Vec.withCapacity alloc capacity, none⟩

def shouldFlush (chunkSize : Option ℕ) (buffer : Vec T) : Bool :=
  match chunkSize with
  | some cs => cs ≤ buffer.items.length
  | none => false

def push (f : FenceBarrier T) (item : T) : Option (Vec T) × FenceBarrier T :=
  let buffer := f.buffer.extend alloc [item]
  if shouldFlush f.chunkSize buffer then
    match f.spare with
    | some spare => (some buffer, ⟨f.chunkSize, spare, none⟩)
    | none => (some buffer, ⟨f.chunkSize, Vec.withCapacity alloc 0, none⟩)
  else (none, ⟨f.chunkSize, buffer, f.spare⟩)

/-- a batch that was not drained goes back into the buffer; its allocation is kept where it is the larger one -/
def reuse (f : FenceBarrier T) (batch : Vec T) : FenceBarrier T :=
  let (buffer, batch) := if batch.items.isEmpty then (f.buffer, batch) else (f.buffer.extend alloc batch.items, batch.drain)
  if f.spare.all fun s => s.capacity < batch.capacity then ⟨f.chunkSize, buffer, some batch⟩ else ⟨f.chunkSize, buffer, f.spare⟩

def flush (f : FenceBarrier T) : Option (Vec T) × FenceBarrier T :=
  if f.buffer.items.isEmpty then (none, f) else (some f.buffer, ⟨f.chunkSize, Vec.withCapacity alloc 0, f.spare⟩)

end FenceBarrier

inductive Call (T : Type) where
  | push (item : T)
  | reuse (batch : Vec T)
  | flush

namespace Call

def pushed : Call T → List T
  | .push item => [item]
  | _ => []

def returned : Call T → List T
  | .reuse batch => batch.items
  | _ => []

end Call

def step (alloc : Allocator) (f : FenceBarrier T) : Call T → Option (Vec T) × FenceBarrier T
  | .push item => f.push alloc item
  | .reuse batch => (none, f.reuse alloc batch)
  | .flush => f.flush alloc

/-- the calls one after the other, each with the batch it released -/
def run (alloc : Allocator) : FenceBarrier T → List (Call T) → List (Call T × Option (Vec T)) × FenceBarrier T
  | f, [] => ([], f)
  | f, call :: calls =>
    let (batch, f) := step alloc f call
    let (trace, f) := run alloc f calls
    ((call, batch) :: trace, f)

/-- the items of a batch, if there is one -/
def itemsOf (batch : Option (Vec T)) : List T := (batch.map Vec.items).getD []

/-- the released batches of a run, put together -/
def released (trace : List (Call T × Option (Vec T))) : List T := trace.flatMap fun e => itemsOf e.2

def pushes (calls : List (Call T)) : List T := calls.flatMap Call.pushed

def handedBack (calls : List (Call T)) : List T := calls.flatMap Call.returned

/-! ## The forwarder -/

variable {M : Type}

/-- the locals of the forwarder and what became of the items it sent -/
structure Forwarder (M : Type) where
  fence : FenceBarrier (ℕ × M)
  staged : Staged (ℕ × M)
  wire : Ledger (ℕ × M)

/-- `fence_batch_send`: item by item, or as one batch -/
def fenceBatchSend (link : Link) (batchSend : BatchSend (ℕ × M)) (batched : Bool) (batch : Vec (ℕ × M)) (st : Staged (ℕ × M))
    (w : Ledger (ℕ × M)) : Except Fault (Bool × Vec (ℕ × M) × Staged (ℕ × M) × Ledger (ℕ × M)) :=
  if !batched then
    let (ok, w) := sendEach link batch.items w
    .ok (ok, batch.drain, st, w)
  else do
    let (ok, items, st, w) ← sendBatch link batchSend batch.items st w
    .ok (ok, ⟨items, batch.capacity⟩, st, w)

section Forward

variable (alloc : Allocator) (link : Link) (batchSend : BatchSend (ℕ × M)) (batched : Bool)

/-- `fwd`: one item through the fence -/
def fwd (s : Forwarder M) (item : ℕ × M) : Except Fault (Bool × Forwarder M) :=
  match s.fence.push alloc item with
  | (none, fence) => .ok (true, { s with fence := fence })
  | (some batch, fence) => do
    let (ok, batch, st, w) ← fenceBatchSend link batchSend batched batch s.staged s.wire
    .ok (ok, ⟨if ok then fence.reuse alloc batch else fence, st, w⟩)

/-- the loop over one claim; `false` leaves the forwarder, and the rest of the claim is dropped -/
def forwardClaim : List (ℕ × M) → Forwarder M → Except Fault (Bool × Forwarder M)
  | [], s => .ok (true, s)
  | item :: rest, s =>
    let (stop, w) := cancelActive link s.wire
    if stop then .ok (false, { s with wire := w.discard (item :: rest) })
    else do
      match ← fwd alloc link batchSend batched { s with wire := w } item with
      | (true, s) => forwardClaim rest s
      | (false, s) => .ok (false, { s with wire := s.wire.discard rest })

/-- the loop over the claims `anchor_claim` returns; an empty one, or their end, says that the middle channel is closed -/
def forwardLoop : List (List (ℕ × M)) → Forwarder M → Except Fault (Bool × Forwarder M)
  | [], s => .ok (true, s)
  | scratch :: claims, s =>
    if scratch.isEmpty then .ok (true, s)
    else do
      match ← forwardClaim alloc link batchSend batched scratch s with
      | (true, s) => forwardLoop claims s
      | (false, s) => .ok (false, s)

/-- the fence a forwarder starts with: a hard barrier is given room for the whole input -/
def startFence (mode : FenceMode) (expected : ℕ) : FenceBarrier T :=
  match mode with
  | .barrier => FenceBarrier.withCapacity alloc mode expected
  | .chunked _ => FenceBarrier.new alloc mode

/-- `forward_fenced`; a forwarder that leaves early drops what its fence holds -/
def forwardFenced (mode : FenceMode) (expected : ℕ) (claims : List (List (ℕ × M))) : Except Fault (Ledger (ℕ × M)) := do
  let (closed, s) ← forwardLoop alloc link batchSend batched claims ⟨startFence alloc mode expected, [], Ledger.fresh⟩
  if closed then
    match s.fence.flush alloc with
    | (none, _) => .ok s.wire
    | (some remaining, _) => do
      let (_, _, _, w) ← fenceBatchSend link batchSend batched remaining s.staged s.wire
      .ok w
  else .ok (s.wire.discard s.fence.buffer.items)

end Forward

/-! ## Calls on a barrier -/

/-- what a call brings -/
def Call.given (call : Call T) : List T := call.pushed ++ call.returned

/-- the spare is an allocation, never a store -/
def FenceBarrier.SpareEmpty (f : FenceBarrier T) : Prop := ∀ v, f.spare = some v → v.items = []

section Calls

variable (alloc : Allocator)

/-- a push either releases the whole buffer, over an empty one, or keeps it -/
theorem push_cases {f : FenceBarrier T} (hf : f.SpareEmpty) (item : T) :
    (∃ k batch buffer, f.chunkSize = some k ∧ k ≤ f.buffer.items.length + 1 ∧ batch.items = f.buffer.items ++ [item] ∧
      buffer.items = [] ∧ f.push alloc item = (some batch, ⟨f.chunkSize, buffer, none⟩)) ∨
    ∃ buffer, (∀ k, f.chunkSize = some k → f.buffer.items.length + 1 < k) ∧ buffer.items = f.buffer.items ++ [item] ∧
      f.push alloc item = (none, ⟨f.chunkSize, buffer, f.spare⟩) := by
  obtain ⟨chunkSize, buffer, spare⟩ := f
  rcases chunkSize with _ | k
  · exact Or.inr ⟨buffer.extend alloc [item], by simp, rfl, rfl⟩
  by_cases hk : k ≤ buffer.items.length + 1
  · have hflush : FenceBarrier.shouldFlush (some k) (buffer.extend alloc [item]) = true := by
      simpa [FenceBarrier.shouldFlush, Vec.extend] using hk
    left
    rcases spare with _ | spare
    · refine ⟨k, buffer.extend alloc [item], Vec.withCapacity alloc 0, rfl, hk, rfl, rfl, ?_⟩
      simp only [FenceBarrier.push, hflush, if_true]
    · refine ⟨k, buffer.extend alloc [item], spare, rfl, hk, rfl, hf spare rfl, ?_⟩
      simp only [FenceBarrier.push, hflush, if_true]
  · have hflush : FenceBarrier.shouldFlush (some k) (buffer.extend alloc [item]) = false := by
      simpa [FenceBarrier.shouldFlush, Vec.extend] using hk
    refine Or.inr ⟨buffer.extend alloc [item], ?_, rfl, ?_⟩
    · intro k' hk'
      rw [← Option.some.inj hk']
      exact Nat.lt_of_not_le hk
    · simp only [FenceBarrier.push, hflush, Bool.false_eq_true, if_false]

/-- a batch handed back gives its items to the buffer and at most its allocation to the spare -/
theorem reuse_spec {f : FenceBarrier T} (hf : f.SpareEmpty) (batch : Vec T) : (f.reuse alloc batch).chunkSize = f.chunkSize ∧
    (f.reuse alloc batch).buffer.items = f.buffer.items ++ batch.items ∧ (f.reuse alloc batch).SpareEmpty := by
  have hspare : ∀ (buffer : Vec T) (empty : Vec T), empty.items = [] →
      (FenceBarrier.mk f.chunkSize buffer (some empty)).SpareEmpty ∧ (FenceBarrier.mk f.chunkSize buffer f.spare).SpareEmpty := by
    intro buffer empty hempty
    exact ⟨fun v hv => Option.some.inj hv ▸ hempty, hf⟩
  unfold FenceBarrier.reuse
  rcases hb : batch.items with _ | ⟨x, xs⟩
  · simp only [List.isEmpty_nil, if_true, List.append_nil]
    split
    · exact ⟨rfl, rfl, (hspare f.buffer batch hb).1⟩
    · exact ⟨rfl, rfl, (hspare f.buffer batch hb).2⟩
  · simp only [List.isEmpty_cons, Bool.false_eq_true, if_false]
    split
    · exact ⟨rfl, rfl, (hspare _ batch.drain rfl).1⟩
    · exact ⟨rfl, rfl, (hspare _ batch.drain rfl).2⟩

theorem flush_spec {f : FenceBarrier T} (hf : f.SpareEmpty) : (f.flush alloc).2.chunkSize = f.chunkSize ∧
    itemsOf (f.flush alloc).1 = f.buffer.items ∧ (f.flush alloc).2.buffer.items = [] ∧ (f.flush alloc).2.SpareEmpty := by
  unfold FenceBarrier.flush
  rcases hb : f.buffer.items with _ | ⟨x, xs⟩
  · exact ⟨rfl, rfl, hb, hf⟩
  · exact ⟨rfl, hb, rfl, hf⟩

/-- **One call.** What it releases, followed by what is buffered after it, is what was buffered before and what it brings. -/
theorem step_conserves {f : FenceBarrier T} (hf : f.SpareEmpty) (call : Call T) :
    (step alloc f call).2.chunkSize = f.chunkSize ∧ (step alloc f call).2.SpareEmpty ∧
      itemsOf (step alloc f call).1 ++ (step alloc f call).2.buffer.items = f.buffer.items ++ call.given := by
  cases call with
  | push item =>
    rw [step]
    rcases push_cases alloc hf item with ⟨k, batch, buffer, -, -, hitems, hempty, hpush⟩ | ⟨buffer, -, hitems, hpush⟩
    · rw [hpush]
      refine ⟨rfl, by simp [FenceBarrier.SpareEmpty], ?_⟩
      simpa [itemsOf, hempty, Call.given, Call.pushed, Call.returned] using hitems
    · rw [hpush]
      exact ⟨rfl, hf, by simpa [itemsOf, Call.given, Call.pushed, Call.returned] using hitems⟩
  | reuse batch =>
    obtain ⟨hsize, hitems, hspare⟩ := reuse_spec alloc hf batch
    exact ⟨hsize, hspare, by simpa [step, itemsOf, Call.given, Call.pushed, Call.returned] using hitems⟩
  | flush =>
    obtain ⟨hsize, hitems, hempty, hspare⟩ := flush_spec alloc hf
    refine ⟨hsize, hspare, ?_⟩
    simp [step, hitems, hempty, Call.given, Call.pushed, Call.returned]

/-- with fewer than `k` items buffered and nothing handed back, a call releases on a push `k` items, or none, and leaves fewer
than `k` -/
theorem step_chunk {k : ℕ} {f : FenceBarrier T} (hf : f.SpareEmpty) (hk : 0 < k) (hsize : f.chunkSize = some k)
    (hlt : f.buffer.items.length < k) {call : Call T} (hcall : call.returned = []) :
    (step alloc f call).2.buffer.items.length < k ∧
      ∀ item batch, call = .push item → (step alloc f call).1 = some batch → batch.items.length = k := by
  cases call with
  | push item =>
    rw [step]
    rcases push_cases alloc hf item with ⟨k', batch, buffer, hk', hle, hitems, hempty, hpush⟩ | ⟨buffer, hless, hitems, hpush⟩
    · obtain rfl : k = k' := Option.some.inj (hsize.symm.trans hk')
      rw [hpush]
      refine ⟨by simpa [hempty] using hk, ?_⟩
      intro item' batch' _ hbatch
      rw [← Option.some.inj hbatch, hitems, List.length_append, List.length_singleton]
      omega
    · rw [hpush]
      refine ⟨?_, by simp⟩
      rw [hitems, List.length_append, List.length_singleton]
      exact hless k hsize
  | reuse batch =>
    obtain ⟨-, hitems, -⟩ := reuse_spec alloc hf batch
    refine ⟨?_, by simp⟩
    rw [step, hitems, show batch.items = [] from hcall, List.append_nil]
    exact hlt
  | flush =>
    obtain ⟨-, -, hempty, -⟩ := flush_spec alloc hf
    refine ⟨?_, by simp⟩
    rw [step, hempty]
    exact hk

/-- **(1)** over any calls the released items and the buffered ones are, in this order, what was buffered and what the calls
brought; the spare stays empty -/
theorem run_conserves (calls : List (Call T)) : ∀ {f : FenceBarrier T}, f.SpareEmpty →
    (run alloc f calls).2.SpareEmpty ∧ released (run alloc f calls).1 ++ (run alloc f calls).2.buffer.items =
      f.buffer.items ++ calls.flatMap Call.given := by
  induction calls with
  | nil => intro f hf; exact ⟨hf, by simp [run, released]⟩
  | cons call calls ih =>
    intro f hf
    obtain ⟨-, hspare, hstep⟩ := step_conserves alloc hf call
    obtain ⟨hspare', hrun⟩ := ih hspare
    refine ⟨hspare', ?_⟩
    simp only [run, released, List.flatMap_cons, List.append_assoc] at hrun ⊢
    rw [hrun, ← List.append_assoc, hstep, List.append_assoc]

/-- nothing handed back: only whole chunks are released by a push -/
theorem run_chunks {k : ℕ} (hk : 0 < k) (calls : List (Call T)) (hcalls : ∀ call ∈ calls, call.returned = []) :
    ∀ {f : FenceBarrier T}, f.SpareEmpty → f.chunkSize = some k → f.buffer.items.length < k →
      ∀ item batch, (Call.push item, some batch) ∈ (run alloc f calls).1 → batch.items.length = k := by
  induction calls with
  | nil => intro f _ _ _ item batch hmem; simp [run] at hmem
  | cons call calls ih =>
    intro f hf hsize hlt item batch hmem
    obtain ⟨hsize', hspare', -⟩ := step_conserves alloc hf call
    obtain ⟨hlt', hchunk⟩ := step_chunk alloc hf hk hsize hlt (hcalls call List.mem_cons_self)
    simp only [run, List.mem_cons, Prod.mk.injEq] at hmem
    rcases hmem with ⟨hcall, hbatch⟩ | hmem
    · exact hchunk item batch hcall.symm hbatch.symm
    · exact ih (fun c hc => hcalls c (List.mem_cons_of_mem call hc)) hspare' (hsize'.trans hsize) hlt' item batch hmem

/-- a hard barrier keeps what is pushed -/
theorem push_barrier {f : FenceBarrier T} (hsize : f.chunkSize = none) (item : T) :
    f.push alloc item = (none, ⟨f.chunkSize, f.buffer.extend alloc [item], f.spare⟩) := by
  rw [FenceBarrier.push, hsize]
  rfl

theorem run_barrier (calls : List (Call T)) : ∀ {f : FenceBarrier T}, f.SpareEmpty → f.chunkSize = none →
    ∀ item batch, (Call.push item, some batch) ∉ (run alloc f calls).1 := by
  induction calls with
  | nil => intro f _ _ item batch hmem; simp [run] at hmem
  | cons call calls ih =>
    intro f hf hsize item batch hmem
    obtain ⟨hsize', hspare', -⟩ := step_conserves alloc hf call
    simp only [run, List.mem_cons, Prod.mk.injEq] at hmem
    rcases hmem with ⟨rfl, hbatch⟩ | hmem
    · rw [step, push_barrier alloc hsize] at hbatch
      cases hbatch
    · exact ih hspare' (hsize'.trans hsize) item batch hmem

end Calls

/-! ## Forwarding -/

/-- on the way: `input` has been sent up to what the fence holds, and nothing was dropped -/
structure Carries (input : List (ℕ × M)) (s : Forwarder M) : Prop where
  spare : s.fence.SpareEmpty
  spent : Spent s.staged
  items : s.wire.sent ++ s.fence.buffer.items = input
  dropped : s.wire.dropped = []

section Forwarding

variable (alloc : Allocator) {link : Link} {batchSend : BatchSend (ℕ × M)} (batched : Bool)

theorem fenceBatchSend_open (hopen : Open link) (hb : Sends batchSend) (batch : Vec (ℕ × M)) {st : Staged (ℕ × M)} (hst : Spent st)
    (w : Ledger (ℕ × M)) : ∃ batch' st' w', fenceBatchSend link batchSend batched batch st w = .ok (true, batch', st', w') ∧
      batch'.items = [] ∧ Spent st' ∧ Delivers batch.items w w' := by
  rcases batched with _ | _
  · obtain ⟨w', hrun, hdel⟩ := sendEach_open hopen batch.items w
    refine ⟨batch.drain, st, w', ?_, rfl, hst, hdel⟩
    simp only [fenceBatchSend, Bool.not_false, if_true, hrun]
  · obtain ⟨st', w', hrun, hspent, hdel⟩ := sendBatch_open hopen hb batch.items hst w
    refine ⟨⟨[], batch.capacity⟩, st', w', ?_, rfl, hspent, hdel⟩
    simp only [fenceBatchSend, Bool.not_true, Bool.false_eq_true, if_false, hrun, bind, Except.bind]

theorem fwd_carries (hopen : Open link) (hb : Sends batchSend) {input : List (ℕ × M)} {s : Forwarder M} (h : Carries input s)
    (item : ℕ × M) : ∃ s', fwd alloc link batchSend batched s item = .ok (true, s') ∧ Carries (input ++ [item]) s' := by
  rcases push_cases alloc h.spare item with ⟨k, batch, buffer, -, -, hitems, hempty, hpush⟩ | ⟨buffer, -, hitems, hpush⟩
  · -- a batch is released: it is sent, and its vector comes back empty
    obtain ⟨batch', st', w', hsend, hdrained, hspent, hdel⟩ := fenceBatchSend_open batched hopen hb batch h.spent s.wire
    obtain ⟨-, hbuffer, hspare⟩ := reuse_spec alloc (f := ⟨s.fence.chunkSize, buffer, none⟩) (by simp [FenceBarrier.SpareEmpty]) batch'
    refine ⟨⟨FenceBarrier.reuse alloc ⟨s.fence.chunkSize, buffer, none⟩ batch', st', w'⟩, ?_, hspare, hspent, ?_, ?_⟩
    · simp only [fwd, hpush, hsend, bind, Except.bind, if_true]
    · simp only [hbuffer, hempty, hdrained, hdel.sent, hitems, List.append_nil]
      rw [← List.append_assoc, h.items]
    · exact hdel.dropped.trans h.dropped
  · refine ⟨{ s with fence := ⟨s.fence.chunkSize, buffer, s.fence.spare⟩ }, ?_, h.spare, h.spent, ?_, h.dropped⟩
    · simp only [fwd, hpush]
    · simp only [hitems]
      rw [← List.append_assoc, h.items]

theorem forwardClaim_carries (hopen : Open link) (hcancel : ∀ t, link.cancelled t = false) (hb : Sends batchSend)
    (scratch : List (ℕ × M)) : ∀ {input : List (ℕ × M)} {s : Forwarder M}, Carries input s →
      ∃ s', forwardClaim alloc link batchSend batched scratch s = .ok (true, s') ∧ Carries (input ++ scratch) s' := by
  induction scratch with
  | nil => intro input s h; exact ⟨s, rfl, by simpa using h⟩
  | cons item rest ih =>
    intro input s h
    have htick : Carries input { s with wire := s.wire.tick } := ⟨h.spare, h.spent, h.items, h.dropped⟩
    obtain ⟨s₁, hfwd, h₁⟩ := fwd_carries alloc batched hopen hb htick item
    obtain ⟨s', hrest, h'⟩ := ih h₁
    refine ⟨s', ?_, by simpa using h'⟩
    simp only [forwardClaim, cancelActive, hcancel, Bool.false_eq_true, if_false, hfwd, bind, Except.bind, hrest]

/-- the items claimed before the middle channel is found closed -/
def inputOf (claims : List (List (ℕ × M))) : List (ℕ × M) := (claims.takeWhile fun c => !c.isEmpty).flatten

theorem forwardLoop_carries (hopen : Open link) (hcancel : ∀ t, link.cancelled t = false) (hb : Sends batchSend)
    (claims : List (List (ℕ × M))) : ∀ {input : List (ℕ × M)} {s : Forwarder M}, Carries input s →
      ∃ s', forwardLoop alloc link batchSend batched claims s = .ok (true, s') ∧ Carries (input ++ inputOf claims) s' := by
  induction claims with
  | nil => intro input s h; exact ⟨s, rfl, by simpa [inputOf] using h⟩
  | cons scratch claims ih =>
    intro input s h
    rcases hs : scratch with _ | ⟨item, rest⟩
    · exact ⟨s, rfl, by simpa [inputOf] using h⟩
    obtain ⟨s₁, hclaim, h₁⟩ := forwardClaim_carries alloc batched hopen hcancel hb (item :: rest) h
    obtain ⟨s', hloop, h'⟩ := ih h₁
    refine ⟨s', ?_, by simpa [inputOf] using h'⟩
    simp only [forwardLoop, List.isEmpty_cons, Bool.false_eq_true, if_false, hclaim, bind, Except.bind, hloop]

/-- a barrier with an unbounded chunk sends nothing while claims arrive, whatever the channel answers and the token says -/
theorem forwardClaim_silent (link : Link) (batchSend : BatchSend (ℕ × M)) (scratch : List (ℕ × M)) :
    ∀ {s : Forwarder M}, s.fence.chunkSize = none → ∃ go s', forwardClaim alloc link batchSend batched scratch s = .ok (go, s') ∧ s'.wire.sent = s.wire.sent ∧
      s'.fence.chunkSize = none := by
  induction scratch with
  | nil => intro s h; exact ⟨true, s, rfl, rfl, h⟩
  | cons item rest ih =>
    intro s h
    rcases hc : link.cancelled s.wire.clock with _ | _
    · obtain ⟨go, s', hrest, hsent, hsize⟩ :=
        ih (s := ⟨⟨s.fence.chunkSize, s.fence.buffer.extend alloc [item], s.fence.spare⟩, s.staged, s.wire.tick⟩) h
      refine ⟨go, s', ?_, hsent, hsize⟩
      simp only [forwardClaim, cancelActive, hc, Bool.false_eq_true, if_false, fwd, push_barrier alloc h, bind, Except.bind, hrest]
    · refine ⟨false, { s with wire := s.wire.tick.discard (item :: rest) }, ?_, rfl, h⟩
      simp only [forwardClaim, cancelActive, hc, if_true]

theorem forwardLoop_silent (link : Link) (batchSend : BatchSend (ℕ × M)) (claims : List (List (ℕ × M))) :
    ∀ {s : Forwarder M}, s.fence.chunkSize = none →
      ∃ closed s', forwardLoop alloc link batchSend batched claims s = .ok (closed, s') ∧ s'.wire.sent = s.wire.sent := by
  induction claims with
  | nil => intro s _; exact ⟨true, s, rfl, rfl⟩
  | cons scratch claims ih =>
    intro s h
    rcases hs : scratch with _ | ⟨item, rest⟩
    · exact ⟨true, s, rfl, rfl⟩
    obtain ⟨go, s₁, hclaim, hsent₁, hsize⟩ := forwardClaim_silent alloc batched link batchSend (item :: rest) h
    rcases go with _ | _
    · refine ⟨false, s₁, ?_, hsent₁⟩
      simp only [forwardLoop, List.isEmpty_cons, Bool.false_eq_true, if_false, hclaim, bind, Except.bind]
    · obtain ⟨closed, s', hloop, hsent⟩ := ih hsize
      refine ⟨closed, s', ?_, hsent.trans hsent₁⟩
      simp only [forwardLoop, List.isEmpty_cons, Bool.false_eq_true, if_false, hclaim, bind, Except.bind, hloop]

/-- the fence of a forwarder that has seen nothing -/
theorem start_carries (mode : FenceMode) (expected : ℕ) :
    Carries [] (⟨startFence alloc mode expected, [], Ledger.fresh⟩ : Forwarder M) := by
  cases mode with
  | barrier => exact ⟨by simp [startFence, FenceBarrier.withCapacity, FenceBarrier.SpareEmpty], spent_nil, rfl, rfl⟩
  | chunked k => exact ⟨by simp [startFence, FenceBarrier.new, FenceBarrier.SpareEmpty], spent_nil, rfl, rfl⟩

/-- the forwarder on an open channel sends its input -/
theorem forwardFenced_sends (hopen : Open link) (hcancel : ∀ t, link.cancelled t = false) (hb : Sends batchSend) (mode : FenceMode)
    (expected : ℕ) (claims : List (List (ℕ × M))) : ∃ w, forwardFenced alloc link batchSend batched mode expected claims = .ok w ∧
      w.sent = inputOf claims ∧ w.dropped = [] := by
  obtain ⟨s, hloop, h⟩ := forwardLoop_carries alloc batched hopen hcancel hb claims (start_carries alloc mode expected)
  rw [List.nil_append] at h
  rcases hbuf : s.fence.buffer.items with _ | ⟨x, xs⟩
  · refine ⟨s.wire, ?_, ?_, h.dropped⟩
    · simp only [forwardFenced, hloop, bind, Except.bind, if_true, FenceBarrier.flush, hbuf, List.isEmpty_nil]
    · rw [← h.items, hbuf, List.append_nil]
  · obtain ⟨batch', st', w', hsend, -, -, hdel⟩ :=
      fenceBatchSend_open batched hopen hb s.fence.buffer h.spent s.wire
    refine ⟨w', ?_, ?_, hdel.dropped.trans h.dropped⟩
    · simp only [forwardFenced, hloop, bind, Except.bind, if_true, FenceBarrier.flush, hbuf, List.isEmpty_cons, Bool.false_eq_true,
        if_false, hsend]
    · rw [hdel.sent, h.items]

end Forwarding

/-! ## Results -/

/-- a barrier before its first call -/
def FenceBarrier.Fresh (alloc : Allocator) (mode : FenceMode) (f : FenceBarrier T) : Prop :=
  f = .new alloc mode ∨ ∃ capacity, f = .withCapacity alloc mode capacity

theorem FenceBarrier.Fresh.spec {alloc : Allocator} {mode : FenceMode} {f : FenceBarrier T} (h : f.Fresh alloc mode) :
    f.chunkSize = mode.chunkSize ∧ f.buffer.items = [] ∧ f.SpareEmpty := by
  rcases h with rfl | ⟨capacity, rfl⟩
  · exact ⟨rfl, rfl, by simp [FenceBarrier.new, SpareEmpty]⟩
  · exact ⟨rfl, rfl, by simp [FenceBarrier.withCapacity, SpareEmpty]⟩

/-- **Fences conserve and order.** For every mode and every sequence of calls on a fresh barrier:
- the released and the buffered items are, as multisets, the pushed ones and those handed back, and the spare is empty;
- if every batch handed back was drained, released and buffered items are the pushed ones in order, and a push that releases
  under `Chunked(k)` releases `k` items;
- `Barrier` releases on no push.
For every input, claims and send mode: on an open channel, without a token set, the forwarder sends exactly its input in order;
and under `Barrier` it has sent nothing when its loop over the claims ends. -/
theorem fence_forwards {T M : Type} (alloc : Allocator) (mode : FenceMode) :
    (∀ (f : FenceBarrier T) (calls : List (Call T)), f.Fresh alloc mode →
      (released (run alloc f calls).1 : Multiset T) + ((run alloc f calls).2.buffer.items : Multiset T) =
          (pushes calls : Multiset T) + (handedBack calls : Multiset T) ∧
        (∀ spare, (run alloc f calls).2.spare = some spare → spare.items = []) ∧
        ((∀ batch, Call.reuse batch ∈ calls → batch.items = []) →
          released (run alloc f calls).1 ++ (run alloc f calls).2.buffer.items = pushes calls ∧
          ∀ k item batch, mode = .chunked k → (Call.push item, some batch) ∈ (run alloc f calls).1 → batch.items.length = k) ∧
        (mode = .barrier → ∀ item batch, (Call.push item, some batch) ∉ (run alloc f calls).1)) ∧
    ∀ (link : Link) (batchSend : BatchSend (ℕ × M)) (batched : Bool) (expected : ℕ) (claims : List (List (ℕ × M))),
      (batchSend = trySendBatch link ∨ batchSend = nativeTrySendBatch link) →
      (Open link → (∀ t, link.cancelled t = false) →
        ∃ w, forwardFenced alloc link batchSend batched mode expected claims = .ok w ∧ w.sent = inputOf claims ∧ w.dropped = []) ∧
      (mode = .barrier → ∃ closed s, forwardLoop alloc link batchSend batched claims
        ⟨startFence alloc mode expected, [], Ledger.fresh⟩ = .ok (closed, s) ∧ s.wire.sent = []) := by
  refine ⟨?_, ?_⟩
  · intro f calls hfresh
    obtain ⟨hsize, hempty, hspare⟩ := hfresh.spec
    obtain ⟨hspare', hrun⟩ := run_conserves alloc calls hspare
    rw [hempty, List.nil_append] at hrun
    refine ⟨?_, hspare', ?_, ?_⟩
    · rw [Multiset.coe_add, Multiset.coe_add, hrun, Multiset.coe_eq_coe]
      exact (List.flatMap_append_perm calls Call.pushed Call.returned).symm
    · intro hdrained
      have hreturned : ∀ call ∈ calls, call.returned = [] := by
        intro call hcall
        cases call with
        | push item => rfl
        | reuse batch => exact hdrained batch hcall
        | flush => rfl
      refine ⟨?_, ?_⟩
      · rw [hrun, pushes, List.flatMap_congr fun call hcall => by rw [Call.given, hreturned call hcall, List.append_nil]]
      · rintro k item batch rfl hmem
        exact run_chunks alloc k.pos calls hreturned hspare hsize (by rw [hempty]; exact k.pos) item batch hmem
    · rintro rfl
      exact run_barrier alloc calls hspare hsize
  · intro link batchSend batched expected claims hkind
    have hb : Sends batchSend := by
      rcases hkind with rfl | rfl
      · exact sends_trySendBatch link
      · exact sends_native link
    refine ⟨fun hopen hcancel => forwardFenced_sends alloc batched hopen hcancel hb mode expected claims, ?_⟩
    rintro rfl
    exact forwardLoop_silent alloc batched link batchSend claims rfl

/-- exact allocations, doubled on growth -/
def doubling : Allocator := ⟨id, fun c n => max n (2 * c)⟩

/-- a batch of two handed back full is released again by the next push; three items forwarded in chunks of two -/
theorem fence_forwards_pairs :
    run doubling (.new doubling (.chunked 2)) [.push 1, .push 2, .reuse ⟨[1, 2], 2⟩, .push 3] =
        ([(.push 1, none), (.push 2, some ⟨[1, 2], 2⟩), (.reuse ⟨[1, 2], 2⟩, none), (.push 3, some ⟨[1, 2, 3], 4⟩)],
          ⟨some 2, ⟨[], 2⟩, none⟩) ∧
      ((released (run doubling (.new doubling (.chunked 2)) [.push 1, .push 2, .reuse ⟨[1, 2], 2⟩, .push 3]).1 : Multiset ℕ) +
        ((run doubling (.new doubling (.chunked 2)) [.push 1, .push 2, .reuse ⟨[1, 2], 2⟩, .push 3]).2.buffer.items : Multiset ℕ) =
          (pushes [.push 1, .push 2, .reuse ⟨[1, 2], 2⟩, .push 3] : Multiset ℕ) +
            (handedBack [.push 1, .push 2, .reuse ⟨[1, 2], 2⟩, .push 3] : Multiset ℕ)) ∧
      ∃ w, forwardFenced doubling crowded (nativeTrySendBatch crowded) true (.chunked 2) 3 [[(0, 5), (1, 6)], [(2, 7)]] = .ok w ∧
        w.sent = [(0, 5), (1, 6), (2, 7)] ∧ w.dropped = [] := by
  refine ⟨rfl, ?_, ?_⟩
  · exact ((fence_forwards (M := ℕ) doubling (.chunked 2)).1 _ [.push 1, .push 2, .reuse ⟨[1, 2], 2⟩, .push 3] (Or.inl rfl)).1
  · exact ((fence_forwards (T := ℕ) doubling (.chunked 2)).2 crowded (nativeTrySendBatch crowded) true 3
      [[(0, 5), (1, 6)], [(2, 7)]] (Or.inr rfl)).1 crowded_open fun _ => rfl

end YouPipe.Fence
