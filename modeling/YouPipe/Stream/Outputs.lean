/-
Output delivery of the stage workers (`spawn_stage_fanout` and `spawn_expand_stage_fanout` in `builder/typed/stream.rs`). A worker
claims a run of inputs, calls the stage on each and hands the outputs on. The per-item arm sends every output as soon as it
exists; the batched arm collects the outputs of a claim and sends them with `send_batch`, for an expansion also in the middle of
the claim when as many as the flush cap have come together.

The token is looked at before every call of the stage. `observed n` says what a worker finds there that has made `n` calls, so
both arms meet the same token however their sends are spread over time. A stage is an `Fn` that may keep state of its own: its
answer may depend on the calls made before. It returns; a panic unwinds the worker and is not modelled here.

- `batched_agrees`: on a channel that stays open the two arms send the same messages in the same order, call the stage on the
  same inputs and leave at the same input, whatever the claims, the flush cap and the free slots the sends find.
-/
import Mathlib.Tactic
import YouPipe.Handoff.Batch

namespace YouPipe.Outputs

open YouPipe.RawVec YouPipe.Handoff

/-! ## Model -/

/-- why a worker left its loop: no more input, the token seen before the input at that position, or the output channel closed -/
inductive Exit where
  | disconnected
  | cancelled (position : ℕ)
  | closed
deriving DecidableEq, Repr

/-- a worker's locals, with the inputs the stage was called on and what became of the outputs -/
structure Worker (I N : Type) where
  calls : List I
  mapped : List (ℕ × N)
  staged : Staged (ℕ × N)
  wire : Ledger (ℕ × N)
deriving DecidableEq

variable {I N : Type}

/-- a worker before its first claim -/
def Worker.idle : Worker I N := ⟨[], [], [], Ledger.fresh⟩

/-- one call of the stage -/
def Worker.call (s : Worker I N) (item : I) : Worker I N := { s with calls := s.calls ++ [item] }

/-- `mapped.clear()`, with the destructors -/
def Worker.clearMapped (s : Worker I N) : Worker I N := { s with mapped := [], wire := s.wire.discard s.mapped }

/-- `tx.send_batch(&mut mapped, &mut staged)` -/
def Worker.sendMapped (link : Link) (batchSend : BatchSend (ℕ × N)) (s : Worker I N) : Except Fault (Bool × Worker I N) := do
  let (ok, mapped, staged, wire) ← sendBatch link batchSend s.mapped s.staged s.wire
  .ok (ok, { s with mapped := mapped, staged := staged, wire := wire })

/-- one run of claimed inputs; `some exit` leaves the loop -/
abbrev Arm (I N : Type) := List (ℕ × I) → Worker I N → Except Fault (Option Exit × Worker I N)

/-- the per-item arm of a stage -/
def stageEach (link : Link) (observed : ℕ → Bool) (stage : List I → I → N) :
    List (ℕ × I) → Worker I N → Option Exit × Worker I N
  | [], s => (none, s)
  | (seq, item) :: rest, s =>
    if observed s.calls.length then (some (.cancelled s.calls.length), s)
    else
      let output := stage s.calls item
      match send link (seq, output) s.wire with
      | (true, wire) => stageEach link observed stage rest { s.call item with wire := wire }
      | (false, wire) => (some .closed, { s.call item with wire := wire })

/-- the mapping loop of the batched arm of a stage: whether the token ended it -/
def mapClaim (observed : ℕ → Bool) (stage : List I → I → N) : List (ℕ × I) → Worker I N → Bool × Worker I N
  | [], s => (false, s)
  | (seq, item) :: rest, s =>
    if observed s.calls.length then (true, s)
    else mapClaim observed stage rest { s.call item with mapped := s.mapped ++ [(seq, stage s.calls item)] }

/-- the batched arm of a stage -/
def stageBatched (link : Link) (batchSend : BatchSend (ℕ × N)) (observed : ℕ → Bool) (stage : List I → I → N) : Arm I N :=
  fun scratch s => do
    let (cancelled, s) := mapClaim observed stage scratch s.clearMapped
    let (ok, s) ← s.sendMapped link batchSend
    if ok then .ok (if cancelled then some (.cancelled s.calls.length) else none, s) else .ok (some .closed, s)

/-- the outputs of one expanded input, each sent on its own; what a closed channel leaves in the buffer is dropped -/
def sendEach (link : Link) : List (ℕ × N) → Ledger (ℕ × N) → Bool × Ledger (ℕ × N)
  | [], w => (true, w)
  | x :: rest, w =>
    match send link x w with
    | (true, w) => sendEach link rest w
    | (false, w) => (false, w.discard rest)

/-- the per-item arm of an expansion -/
def expandEach (link : Link) (observed : ℕ → Bool) (expand : List I → I → List N) :
    List (ℕ × I) → Worker I N → Option Exit × Worker I N
  | [], s => (none, s)
  | (seq, item) :: rest, s =>
    if observed s.calls.length then (some (.cancelled s.calls.length), s)
    else
      match sendEach link ((expand s.calls item).map (Prod.mk seq)) s.wire with
      | (true, wire) => expandEach link observed expand rest { s.call item with wire := wire }
      | (false, wire) => (some .closed, { s.call item with wire := wire })

/-- the collecting loop of the batched arm of an expansion: whether the token ended it, or `none` when a send found the channel
closed -/
def expandClaim (link : Link) (batchSend : BatchSend (ℕ × N)) (observed : ℕ → Bool) (expand : List I → I → List N)
    (flushCap : ℕ) : List (ℕ × I) → Worker I N → Except Fault (Option Bool × Worker I N)
  | [], s => .ok (some false, s)
  | (seq, item) :: rest, s =>
    if observed s.calls.length then .ok (some true, s)
    else
      let s := { s.call item with mapped := s.mapped ++ (expand s.calls item).map (Prod.mk seq) }
      if flushCap ≤ s.mapped.length then do
        let (ok, s) ← s.sendMapped link batchSend
        if ok then expandClaim link batchSend observed expand flushCap rest s else .ok (none, s)
      else expandClaim link batchSend observed expand flushCap rest s

/-- the batched arm of an expansion -/
def expandBatched (link : Link) (batchSend : BatchSend (ℕ × N)) (observed : ℕ → Bool) (expand : List I → I → List N)
    (flushCap : ℕ) : Arm I N :=
  fun scratch s => do
    match ← expandClaim link batchSend observed expand flushCap scratch s.clearMapped with
    | (none, s) => .ok (some .closed, s)
    | (some cancelled, s) => do
      let (ok, s) ← s.sendMapped link batchSend
      if ok then .ok (if cancelled then some (.cancelled s.calls.length) else none, s) else .ok (some .closed, s)

/-- the worker loop over the claims `anchor_claim` returns; an empty one says that the input is closed -/
def workerLoop (arm : Arm I N) : List (List (ℕ × I)) → Worker I N → Except Fault (Exit × Worker I N)
  | [], s => .ok (.disconnected, s)
  | scratch :: claims, s =>
    if scratch.isEmpty then .ok (.disconnected, s)
    else do
      match ← arm scratch s with
      | (some exit, s) => .ok (exit, s)
      | (none, s) => workerLoop arm claims s

/-- a worker of `spawn_stage_fanout` -/
def stageWorker (txBatch : Bool) (link : Link) (batchSend : BatchSend (ℕ × N)) (observed : ℕ → Bool) (stage : List I → I → N) :
    List (List (ℕ × I)) → Except Fault (Exit × Worker I N) :=
  fun claims => workerLoop (if txBatch then stageBatched link batchSend observed stage
    else fun scratch s => .ok (stageEach link observed stage scratch s)) claims Worker.idle

/-- a worker of `spawn_expand_stage_fanout` -/
def expandWorker (txBatch : Bool) (link : Link) (batchSend : BatchSend (ℕ × N)) (observed : ℕ → Bool)
    (expand : List I → I → List N) (flushCap : ℕ) : List (List (ℕ × I)) → Except Fault (Exit × Worker I N) :=
  fun claims => workerLoop (if txBatch then expandBatched link batchSend observed expand flushCap
    else fun scratch s => .ok (expandEach link observed expand scratch s)) claims Worker.idle

/-! ## What a worker owes -/

/-- the inputs one after the other: the outputs, the calls made, and the position at which the token was seen -/
def serve (observed : ℕ → Bool) (expand : List I → I → List N) : List (ℕ × I) → List I → List (ℕ × N) × List I × Option ℕ
  | [], calls => ([], calls, none)
  | (seq, item) :: rest, calls =>
    if observed calls.length then ([], calls, some calls.length)
    else
      let (outs, calls', seen) := serve observed expand rest (calls ++ [item])
      ((expand calls item).map (Prod.mk seq) ++ outs, calls', seen)

section Serve

variable {observed : ℕ → Bool} {expand : List I → I → List N} {calls : List I}

theorem serve_seen {seq : ℕ} {item : I} {rest : List (ℕ × I)} (h : observed calls.length = true) :
    serve observed expand ((seq, item) :: rest) calls = ([], calls, some calls.length) := by
  simp [serve, h]

theorem serve_go {seq : ℕ} {item : I} {rest : List (ℕ × I)} (h : observed calls.length = false) :
    serve observed expand ((seq, item) :: rest) calls =
      ((expand calls item).map (Prod.mk seq) ++ (serve observed expand rest (calls ++ [item])).1,
        (serve observed expand rest (calls ++ [item])).2) := by
  simp [serve, h]

/-- after a run that the token ended, later inputs change nothing -/
theorem serve_append_seen {xs ys : List (ℕ × I)} : ∀ {calls : List I} {p : ℕ}, (serve observed expand xs calls).2.2 = some p →
    serve observed expand (xs ++ ys) calls = serve observed expand xs calls := by
  induction xs with
  | nil => intro calls p h; simp [serve] at h
  | cons x xs ih =>
    obtain ⟨seq, item⟩ := x
    intro calls p h
    rcases ho : observed calls.length with _ | _
    · rw [serve_go ho] at h
      rw [List.cons_append, serve_go ho, serve_go ho, ih h]
    · rw [List.cons_append, serve_seen ho, serve_seen ho]

/-- otherwise the later inputs go on from the calls made -/
theorem serve_append_none {xs ys : List (ℕ × I)} : ∀ {calls : List I}, (serve observed expand xs calls).2.2 = none →
    serve observed expand (xs ++ ys) calls =
      ((serve observed expand xs calls).1 ++ (serve observed expand ys (serve observed expand xs calls).2.1).1,
        (serve observed expand ys (serve observed expand xs calls).2.1).2) := by
  induction xs with
  | nil => intro calls _; simp [serve]
  | cons x xs ih =>
    obtain ⟨seq, item⟩ := x
    intro calls h
    rcases ho : observed calls.length with _ | _
    · rw [serve_go ho] at h
      rw [List.cons_append, serve_go ho, serve_go ho, ih h]
      simp only [List.append_assoc]
    · rw [serve_seen ho] at h
      cases h

/-- how far a run gets: up to the first input at which the token is seen -/
def Reaches (observed : ℕ → Bool) (inputs : List (ℕ × I)) (calls calls' : List I) (seen : Option ℕ) : Prop :=
  ∃ k ≤ inputs.length, calls' = calls ++ (inputs.take k).map Prod.snd ∧ (∀ j < k, observed (calls.length + j) = false) ∧
    (seen = none ∧ k = inputs.length ∨ seen = some (calls.length + k) ∧ k < inputs.length ∧ observed (calls.length + k) = true)

theorem serve_reaches (observed : ℕ → Bool) (expand : List I → I → List N) (inputs : List (ℕ × I)) : ∀ calls : List I,
    Reaches observed inputs calls (serve observed expand inputs calls).2.1 (serve observed expand inputs calls).2.2 := by
  induction inputs with
  | nil => intro calls; exact ⟨0, le_rfl, by simp [serve], by simp, Or.inl ⟨rfl, rfl⟩⟩
  | cons x rest ih =>
    obtain ⟨seq, item⟩ := x
    intro calls
    rcases ho : observed calls.length with _ | _
    · obtain ⟨k, hk, hcalls, hfree, hend⟩ := ih (calls ++ [item])
      have hlen : ∀ j, (calls ++ [item]).length + j = calls.length + (j + 1) := by
        intro j
        rw [List.length_append, List.length_singleton]
        omega
      simp only [hlen] at hfree hend
      rw [serve_go ho]
      refine ⟨k + 1, by simpa using hk, ?_, ?_, ?_⟩
      · rw [hcalls, List.take_succ_cons, List.map_cons, List.append_assoc, List.singleton_append]
      · intro j hj
        rcases j with _ | j
        · exact ho
        · exact hfree j (by omega)
      · rcases hend with ⟨hnone, rfl⟩ | ⟨hsome, hlt, hset⟩
        · exact Or.inl ⟨hnone, rfl⟩
        · exact Or.inr ⟨hsome, by simpa using hlt, hset⟩
    · rw [serve_seen ho]
      exact ⟨0, Nat.zero_le _, by simp, by simp, Or.inr ⟨rfl, by simp, ho⟩⟩

/-- the token is seen at the input the next call would have been for -/
theorem serve_position {inputs : List (ℕ × I)} {p : ℕ} (h : (serve observed expand inputs calls).2.2 = some p) :
    p = (serve observed expand inputs calls).2.1.length := by
  obtain ⟨k, hk, hcalls, -, hend⟩ := serve_reaches observed expand inputs calls
  rcases hend with ⟨hnone, -⟩ | ⟨hsome, -, -⟩
  · rw [hnone] at h
    cases h
  · rw [hsome] at h
    obtain rfl := Option.some.inj h
    rw [hcalls, List.length_append, List.length_map, List.length_take, min_eq_left hk]

end Serve

/-! ## The arms -/

/-- nothing collected and no staged slot with a value -/
def Worker.Settled (s : Worker I N) : Prop := s.mapped = [] ∧ Spent s.staged

/-- the arm does what `serve` says: the outputs are delivered, the calls made, and it leaves exactly when the token was seen -/
def Meets (observed : ℕ → Bool) (expand : List I → I → List N) (arm : Arm I N) : Prop :=
  ∀ (scratch : List (ℕ × I)) (s : Worker I N), s.Settled → ∃ s',
    arm scratch s = .ok ((serve observed expand scratch s.calls).2.2.map .cancelled, s') ∧
      s'.calls = (serve observed expand scratch s.calls).2.1 ∧ s'.Settled ∧
      Delivers (serve observed expand scratch s.calls).1 s.wire s'.wire

/-- the channel stays open -/
def Open (link : Link) : Prop := ∀ t m, link.answer t m ≠ .closed

section Arms

variable {link : Link} {batchSend : BatchSend (ℕ × N)} (observed : ℕ → Bool)

theorem clearMapped_settled {s : Worker I N} (h : s.Settled) : s.clearMapped = s := by
  obtain ⟨calls, mapped, staged, wire⟩ := s
  obtain ⟨rfl, -⟩ := h
  simp [Worker.clearMapped, Ledger.discard]

/-- a batch on a channel that stays open goes out whole -/
theorem sendBatch_open {T : Type} {link : Link} {batchSend : BatchSend T} (hopen : Open link) (hb : Sends batchSend) (batch : List T)
    {st : Staged T} (hst : Spent st) (w : Ledger T) :
    ∃ st' w', sendBatch link batchSend batch st w = .ok (true, [], st', w') ∧ Spent st' ∧ Delivers batch w w' := by
  rcases batch with _ | ⟨x, xs⟩
  · exact ⟨st, w, rfl, hst, Delivers.refl w⟩
  · obtain ⟨ok, m, w', hrun, -, htrue, hfalse⟩ := flushSlots_spec link false hb (x :: xs) w
    have hstage : stageBatch (x :: xs) st = .ok ([], staged 0 (x :: xs)) := by
      simp only [stageBatch, clear_spent hst, bind, Except.bind]
      rfl
    rcases ok with _ | _
    · rcases hfalse rfl with ⟨hc, -⟩ | ⟨-, t, n, hclosed⟩
      · cases hc
      · exact absurd hclosed (hopen t n)
    · refine ⟨staged m [], w', ?_, spent_staged m, htrue rfl⟩
      simp only [sendBatch, List.isEmpty_cons, Bool.false_eq_true, if_false, hstage, hrun, bind, Except.bind]

theorem sendMapped_open (hopen : Open link) (hb : Sends batchSend) {s : Worker I N} (hst : Spent s.staged) :
    ∃ s', s.sendMapped link batchSend = .ok (true, s') ∧ s'.calls = s.calls ∧ s'.Settled ∧ Delivers s.mapped s.wire s'.wire := by
  obtain ⟨st', w', hrun, hspent, hdel⟩ := sendBatch_open hopen hb s.mapped hst s.wire
  refine ⟨{ s with mapped := [], staged := st', wire := w' }, ?_, rfl, ⟨rfl, hspent⟩, hdel⟩
  simp only [Worker.sendMapped, hrun, bind, Except.bind]

theorem mapClaim_eq (stage : List I → I → N) (scratch : List (ℕ × I)) : ∀ s : Worker I N,
    mapClaim observed stage scratch s =
      ((serve observed (fun c i => [stage c i]) scratch s.calls).2.2.isSome,
        { s with
          calls := (serve observed (fun c i => [stage c i]) scratch s.calls).2.1
          mapped := s.mapped ++ (serve observed (fun c i => [stage c i]) scratch s.calls).1 }) := by
  induction scratch with
  | nil => intro s; simp [mapClaim, serve]
  | cons x rest ih =>
    obtain ⟨seq, item⟩ := x
    intro s
    rcases ho : observed s.calls.length with _ | _
    · rw [mapClaim, ho, serve_go ho, if_neg Bool.false_ne_true, ih]
      simp [Worker.call]
    · rw [mapClaim, ho, serve_seen ho, if_pos rfl]
      simp

/-- the flag a collecting loop returns, as the exit it leads to -/
theorem exit_of_seen {expand : List I → I → List N} {scratch : List (ℕ × I)} {calls : List I} {n : ℕ}
    (h : n = (serve observed expand scratch calls).2.1.length) :
    (if (serve observed expand scratch calls).2.2.isSome then some (Exit.cancelled n) else none) =
      (serve observed expand scratch calls).2.2.map .cancelled := by
  rcases hs : (serve observed expand scratch calls).2.2 with _ | p
  · rfl
  · rw [serve_position hs, ← h]
    rfl

theorem stageBatched_meets (hopen : Open link) (hb : Sends batchSend) (stage : List I → I → N) :
    Meets observed (fun c i => [stage c i]) (stageBatched link batchSend observed stage) := by
  intro scratch s hs
  have hmap := mapClaim_eq observed stage scratch s
  rw [hs.1, List.nil_append] at hmap
  obtain ⟨s', hsend, hcalls, hset, hdel⟩ := sendMapped_open hopen hb (s := (mapClaim observed stage scratch s).2) (by
    rw [hmap]
    exact hs.2)
  rw [hmap] at hsend hcalls hdel
  refine ⟨s', ?_, hcalls, hset, hdel⟩
  simp only [stageBatched, clearMapped_settled hs, hmap, hsend, bind, Except.bind, if_true]
  rw [exit_of_seen observed (congrArg List.length hcalls)]

theorem sendEach_open (hopen : Open link) (xs : List (ℕ × N)) : ∀ w : Ledger (ℕ × N),
    ∃ w', sendEach link xs w = (true, w') ∧ Delivers xs w w' := by
  induction xs with
  | nil => intro w; exact ⟨w, rfl, Delivers.refl w⟩
  | cons x rest ih =>
    intro w
    obtain ⟨w', hrun, hdel⟩ := ih (w.accept [x])
    have hone : Delivers [x] w (w.accept [x]) := ⟨rfl, rfl, rfl, Nat.le_succ _⟩
    refine ⟨w', ?_, hone.trans hdel⟩
    simp only [sendEach, send_ok x (hopen _ _), hrun]

theorem expandEach_meets (hopen : Open link) (expand : List I → I → List N) :
    Meets observed expand fun scratch s => .ok (expandEach link observed expand scratch s) := by
  intro scratch
  induction scratch with
  | nil => intro s hs; exact ⟨s, rfl, rfl, hs, Delivers.refl _⟩
  | cons x rest ih =>
    obtain ⟨seq, item⟩ := x
    intro s hs
    rcases ho : observed s.calls.length with _ | _
    · obtain ⟨w, hsend, hdel⟩ := sendEach_open hopen ((expand s.calls item).map (Prod.mk seq)) s.wire
      obtain ⟨s', hrun, hcalls, hset, hrest⟩ := ih { s.call item with wire := w } hs
      refine ⟨s', ?_, ?_, hset, ?_⟩
      · simp only [expandEach, ho, serve_go ho, Bool.false_eq_true, if_false, hsend]
        exact hrun
      · rw [serve_go ho]
        exact hcalls
      · rw [serve_go ho]
        exact hdel.trans hrest
    · refine ⟨s, ?_, ?_, hs, ?_⟩
      · simp only [expandEach, ho, serve_seen ho, if_true, Option.map_some]
      · rw [serve_seen ho]
      · rw [serve_seen ho]
        exact Delivers.refl _

/-- sending one output is the expansion with one output -/
theorem stageEach_eq_expandEach (stage : List I → I → N) (scratch : List (ℕ × I)) : ∀ s : Worker I N,
    stageEach link observed stage scratch s = expandEach link observed (fun c i => [stage c i]) scratch s := by
  induction scratch with
  | nil => intro s; rfl
  | cons x rest ih =>
    obtain ⟨seq, item⟩ := x
    intro s
    rcases hsend : send link (seq, stage s.calls item) s.wire with ⟨ok, w⟩
    rcases ok with _ | _
    · simp [stageEach, expandEach, sendEach, hsend, Ledger.discard]
    · simp only [stageEach, expandEach, List.map_singleton, sendEach, hsend, ih]

/-- the collecting loop: what it collected in the middle of the claim is delivered, the rest still in `mapped` -/
theorem expandClaim_spec (hopen : Open link) (hb : Sends batchSend) (expand : List I → I → List N) (flushCap : ℕ)
    (scratch : List (ℕ × I)) : ∀ s : Worker I N, Spent s.staged → ∃ s' sent,
      expandClaim link batchSend observed expand flushCap scratch s =
          .ok (some (serve observed expand scratch s.calls).2.2.isSome, s') ∧
        s'.calls = (serve observed expand scratch s.calls).2.1 ∧ Spent s'.staged ∧ Delivers sent s.wire s'.wire ∧
        sent ++ s'.mapped = s.mapped ++ (serve observed expand scratch s.calls).1 := by
  induction scratch with
  | nil => intro s hs; exact ⟨s, [], rfl, rfl, hs, Delivers.refl _, by simp [serve]⟩
  | cons x rest ih =>
    obtain ⟨seq, item⟩ := x
    intro s hs
    rcases ho : observed s.calls.length with _ | _
    · rw [expandClaim, ho, serve_go ho, if_neg Bool.false_ne_true]
      dsimp only
      by_cases hfull : flushCap ≤ (s.mapped ++ (expand s.calls item).map (Prod.mk seq)).length
      · -- as many as the flush cap: they go out before the next input
        obtain ⟨s1, hsend, hcalls1, hset1, hdel1⟩ := sendMapped_open hopen hb
          (s := { s.call item with mapped := s.mapped ++ (expand s.calls item).map (Prod.mk seq) }) hs
        obtain ⟨s', sent, hrun, hcalls, hst, hdel, hsplit⟩ := ih s1 hset1.2
        rw [hcalls1] at hrun hcalls hsplit
        refine ⟨s', _, ?_, hcalls, hst, hdel1.trans hdel, ?_⟩
        · simp only [hfull, if_true, hsend, bind, Except.bind]
          exact hrun
        · rw [List.append_assoc, hsplit, hset1.1, List.nil_append, List.append_assoc]
          rfl
      · obtain ⟨s', sent, hrun, hcalls, hst, hdel, hsplit⟩ :=
          ih { s.call item with mapped := s.mapped ++ (expand s.calls item).map (Prod.mk seq) } hs
        refine ⟨s', sent, ?_, hcalls, hst, hdel, ?_⟩
        · rw [if_neg hfull]
          exact hrun
        · rw [hsplit, List.append_assoc]
          rfl
    · rw [expandClaim, ho, serve_seen ho, if_pos rfl]
      exact ⟨s, [], rfl, rfl, hs, Delivers.refl _, by simp⟩

theorem expandBatched_meets (hopen : Open link) (hb : Sends batchSend) (expand : List I → I → List N) (flushCap : ℕ) :
    Meets observed expand (expandBatched link batchSend observed expand flushCap) := by
  intro scratch s hs
  obtain ⟨s1, sent, hrun, hcalls1, hst, hdel1, hsplit⟩ := expandClaim_spec observed hopen hb expand flushCap scratch s hs.2
  obtain ⟨s', hsend, hcalls, hset, hdel⟩ := sendMapped_open hopen hb hst
  have hcalls' := hcalls.trans hcalls1
  refine ⟨s', ?_, hcalls', hset, ?_⟩
  · simp only [expandBatched, clearMapped_settled hs, hrun, hsend, bind, Except.bind, if_true]
    rw [exit_of_seen observed (congrArg List.length hcalls')]
  · have hall := hdel1.trans hdel
    rwa [hsplit, hs.1, List.nil_append] at hall

end Arms

/-! ## The loop -/

/-- how a worker ends that saw the token at `seen` -/
def exitOf (seen : Option ℕ) : Exit := (seen.map .cancelled).getD .disconnected

theorem workerLoop_meets {observed : ℕ → Bool} {expand : List I → I → List N} {arm : Arm I N} (harm : Meets observed expand arm)
    (claims : List (List (ℕ × I))) : ∀ s : Worker I N, s.Settled → (∀ c ∈ claims, c ≠ []) → ∃ s',
      workerLoop arm claims s =
          .ok (exitOf (serve observed expand claims.flatten s.calls).2.2, s') ∧
        s'.calls = (serve observed expand claims.flatten s.calls).2.1 ∧ s'.Settled ∧
        Delivers (serve observed expand claims.flatten s.calls).1 s.wire s'.wire := by
  induction claims with
  | nil => intro s hs _; exact ⟨s, rfl, rfl, hs, Delivers.refl _⟩
  | cons scratch claims ih =>
    intro s hs hne
    have hclaim : scratch.isEmpty = false := by simpa using hne scratch List.mem_cons_self
    obtain ⟨s1, hrun1, hcalls1, hset1, hdel1⟩ := harm scratch s hs
    rw [List.flatten_cons]
    rcases hseen : (serve observed expand scratch s.calls).2.2 with _ | p
    · obtain ⟨s', hrun, hcalls, hset, hdel⟩ := ih s1 hset1 fun c hc => hne c (List.mem_cons_of_mem _ hc)
      rw [hcalls1] at hrun hcalls hdel
      rw [serve_append_none hseen]
      refine ⟨s', ?_, hcalls, hset, hdel1.trans hdel⟩
      rw [hseen] at hrun1
      simp only [workerLoop, hclaim, Bool.false_eq_true, if_false, hrun1, Option.map_none, bind, Except.bind]
      exact hrun
    · rw [serve_append_seen hseen, hseen]
      refine ⟨s1, ?_, hcalls1, hset1, hdel1⟩
      rw [hseen] at hrun1
      simp only [workerLoop, hclaim, Bool.false_eq_true, if_false, hrun1, Option.map_some, bind, Except.bind, exitOf,
        Option.getD_some]

/-- two workers end alike: the same exit, the same calls, the same messages in the same order, nothing collected and left unsent -/
def Alike (inputs : List (ℕ × I)) (observed : ℕ → Bool) (run run' : Except Fault (Exit × Worker I N)) : Prop :=
  ∃ exit s s', run = .ok (exit, s) ∧ run' = .ok (exit, s') ∧ s.calls = s'.calls ∧ s.wire.sent = s'.wire.sent ∧
    s.wire.dropped = [] ∧ s'.wire.dropped = [] ∧ s.Settled ∧ s'.Settled ∧
    ∃ seen, exit = exitOf seen ∧ Reaches observed inputs [] s.calls seen

theorem alike_of_meets {observed : ℕ → Bool} {expand : List I → I → List N} {arm arm' : Arm I N}
    (harm : Meets observed expand arm) (harm' : Meets observed expand arm') {claims claims' : List (List (ℕ × I))}
    (hne : ∀ c ∈ claims, c ≠ []) (hne' : ∀ c ∈ claims', c ≠ []) (hsame : claims.flatten = claims'.flatten) :
    Alike claims.flatten observed (workerLoop arm claims Worker.idle) (workerLoop arm' claims' Worker.idle) := by
  have hidle : (Worker.idle : Worker I N).Settled := ⟨rfl, spent_nil⟩
  obtain ⟨s, hrun, hcalls, hset, hdel⟩ := workerLoop_meets harm claims Worker.idle hidle hne
  obtain ⟨s', hrun', hcalls', hset', hdel'⟩ := workerLoop_meets harm' claims' Worker.idle hidle hne'
  rw [← hsame] at hrun' hcalls' hdel'
  refine ⟨_, s, s', hrun, hrun', hcalls.trans hcalls'.symm, hdel.sent.trans hdel'.sent.symm, hdel.dropped, hdel'.dropped, hset,
    hset', _, rfl, ?_⟩
  rw [hcalls]
  exact serve_reaches _ expand claims.flatten []

/-! ## Results -/

/-- **Batched and per-item delivery agree.** On channels that stay open, for every sequence of inputs, however each arm's claims
split it, every stage and every expansion (with any number of outputs for an input), every token and every flush cap: the
batched arm and the per-item arm both end, send the same messages in the same order, call the stage on the same inputs, which
are those before the first one at which the token is seen, and leave there, or when the input is closed. -/
theorem batched_agrees {I N : Type} (link link' : Link) (hopen : Open link) (hopen' : Open link') (batchSend : BatchSend (ℕ × N))
    (hkind : batchSend = trySendBatch link ∨ batchSend = nativeTrySendBatch link) (observed : ℕ → Bool)
    (claims claims' : List (List (ℕ × I))) (hne : ∀ c ∈ claims, c ≠ []) (hne' : ∀ c ∈ claims', c ≠ [])
    (hsame : claims.flatten = claims'.flatten) :
    (∀ stage : List I → I → N, Alike claims.flatten observed (stageWorker true link batchSend observed stage claims)
      (stageWorker false link' batchSend observed stage claims')) ∧
    ∀ (expand : List I → I → List N) (flushCap : ℕ),
      Alike claims.flatten observed (expandWorker true link batchSend observed expand flushCap claims)
        (expandWorker false link' batchSend observed expand flushCap claims') := by
  have hb : Sends batchSend := by
    rcases hkind with rfl | rfl
    · exact sends_trySendBatch link
    · exact sends_native link
  constructor
  · intro stage
    refine alike_of_meets (stageBatched_meets observed hopen hb stage) ?_ hne hne' hsame
    simp only [Bool.false_eq_true, if_false, stageEach_eq_expandEach]
    exact expandEach_meets observed hopen' _
  · intro expand flushCap
    exact alike_of_meets (expandBatched_meets observed hopen hb expand flushCap) (expandEach_meets observed hopen' expand) hne hne'
      hsame

/-- a channel that is full at every third call -/
def crowded : Link where
  answer t _ := if t % 3 = 2 then .full else .accepts
  free _ _ := 1
  cancelled _ := false

theorem crowded_open : Open crowded := by
  intro t m
  simp only [crowded]
  split
  · simp
  · simp

/-- each input becomes as many outputs as its value says -/
def copies (_ : List ℕ) (n : ℕ) : List ℕ := List.replicate n n

/-- inputs with two, no, three and one outputs, the token seen before the last: five messages, flushed in the middle of the claim
or one by one -/
theorem batched_agrees_copies :
    expandWorker true crowded (nativeTrySendBatch crowded) (fun n => decide (3 ≤ n)) copies 2 [[(0, 2), (1, 0)], [(2, 3), (3, 1)]] =
        .ok (.cancelled 3, ⟨[2, 0, 3], [], staged 3 [], ⟨5, [(0, 2), (0, 2), (2, 3), (2, 3), (2, 3)], [], false, false⟩⟩) ∧
      Alike [(0, 2), (1, 0), (2, 3), (3, 1)] (fun n => decide (3 ≤ n))
        (expandWorker true crowded (nativeTrySendBatch crowded) (fun n => decide (3 ≤ n)) copies 2
          [[(0, 2), (1, 0)], [(2, 3), (3, 1)]])
        (expandWorker false crowded (nativeTrySendBatch crowded) (fun n => decide (3 ≤ n)) copies 2
          [[(0, 2)], [(1, 0), (2, 3), (3, 1)]]) := by
  refine ⟨by decide, ?_⟩
  exact (batched_agrees crowded crowded crowded_open crowded_open (nativeTrySendBatch crowded) (Or.inr rfl)
    (fun n => decide (3 ≤ n)) [[(0, 2), (1, 0)], [(2, 3), (3, 1)]] [[(0, 2)], [(1, 0), (2, 3), (3, 1)]] (by decide) (by decide)
    rfl).2 copies 2

end YouPipe.Outputs
