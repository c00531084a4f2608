/-
Batch sends (`stage_batch`, `SendItem::try_send_batch` and `send_batch` in `handoff/channel.rs`, `flush_staged` in
`graph/fanin.rs`, `push_items` in `builder/typed/stream.rs`). A batch is moved into a vector of raw slots; the free prefix goes
out in one non-blocking batch send, the rest item by item with the blocking send. Which slots are still initialised is known
from an index only: the item that a full or closed channel hands back is written into the slot it came from, the item of a
failing send is gone, and what lies behind it is dropped in place.

The channel is the other party. `Link` gives its answer to every call, from the call's number and the items accepted so far;
nothing is assumed of it, so it may be full or closed at any point. A blocking send waits out `full`. Of the ring's own batch
send (`try_push_batch`, step by step in `Queue.ArrayQueue` and `Queue.ArrayQueueMpsc`) the answer alone matters here: a prefix
goes out, whose length the link chooses. The token may fire at any check.

- `batch_conserves`: `send_batch`, `flush_staged` and `push_items` send a prefix of their items in order and drop the rest,
  each item once, without touching a moved-out slot and without losing a live one; a batch send that returns true has sent all.
-/
import Mathlib.Tactic
import YouPipe.Core.RawVec

namespace YouPipe.Handoff

open YouPipe.RawVec

/-! ## The channel's side -/

inductive Answer where
  | accepts
  | full
  | closed
deriving DecidableEq, Repr

/-- how the channel answers a call, given the calls made and the items accepted before it; how many slots a native batch send
finds free; and whether the token is set at a check -/
structure Link where
  answer : ℕ → ℕ → Answer
  free : ℕ → ℕ → ℕ
  cancelled : ℕ → Bool

/-- what became of the items: `sent` in order, `dropped` in order. `refused` once a blocking send has reported closed,
`rebuffed` once any send has. -/
structure Ledger (T : Type) where
  clock : ℕ
  sent : List T
  dropped : List T
  refused : Bool
  rebuffed : Bool
deriving DecidableEq, Repr

variable {T : Type}

namespace Ledger

/-- nothing sent, nothing dropped -/
def fresh : Ledger T := ⟨0, [], [], false, false⟩

/-- the channel takes the items of one call -/
def accept (w : Ledger T) (xs : List T) : Ledger T := { w with clock := w.clock + 1, sent := w.sent ++ xs }

/-- destructors run -/
def discard (w : Ledger T) (xs : List T) : Ledger T := { w with dropped := w.dropped ++ xs }

/-- time passes -/
def tick (w : Ledger T) : Ledger T := { w with clock := w.clock + 1 }

end Ledger

/-- `try_send`: `some item` is the item handed back by a full or closed channel -/
def trySend (link : Link) (item : T) (w : Ledger T) : Option T × Ledger T :=
  match link.answer w.clock w.sent.length with
  | .accepts => (none, w.accept [item])
  | .full => (some item, w.tick)
  | .closed => (some item, { w.tick with rebuffed := true })

/-- the blocking `send`: it waits for room, and an item it cannot deliver is dropped with the error -/
def send (link : Link) (item : T) (w : Ledger T) : Bool × Ledger T :=
  match link.answer w.clock w.sent.length with
  | .closed => (false, { w.tick.discard [item] with refused := true, rebuffed := true })
  | _ => (true, w.accept [item])

/-- `cancel_active`, one check of the token -/
def cancelActive (link : Link) (w : Ledger T) : Bool × Ledger T := (link.cancelled w.clock, w.tick)

/-! ## Model -/

/-- the slots of a staging vector -/
abbrev Staged (T : Type) := List (Slot T)

/-- `stage_batch` -/
def stageBatch (batch : List T) (st : Staged T) : Except Fault (List T × Staged T) := do
  let _ ← clear st
  .ok ([], batch.map .live)

/-- the default `try_send_batch`, from slot `n` on -/
def trySendLoop (link : Link) : ℕ → ℕ → Staged T → Ledger T → Except Fault (ℕ × Staged T × Ledger T)
  | 0, _, _, _ => .error .looped
  | fuel + 1, n, values, w =>
    if n < values.length then do
      let (item, values) ← read values n
      match trySend link item w with
      | (none, w) => trySendLoop link fuel (n + 1) values w
      | (some item, w) => do
        let values ← write values n item
        .ok (n, values, w)
    else .ok (n, values, w)

/-- `SendItem::try_send_batch`, as the trait gives it -/
def trySendBatch (link : Link) (values : Staged T) (w : Ledger T) : Except Fault (ℕ × Staged T × Ledger T) :=
  trySendLoop link (values.length + 1) 0 values w

/-- the reads of a native batch send that takes `k` slots from slot `n` on -/
def takeLoop : ℕ → ℕ → Staged T → Except Fault (List T × Staged T)
  | 0, _, values => .ok ([], values)
  | k + 1, n, values => do
    let (item, values) ← read values n
    let (items, values) ← takeLoop k (n + 1) values
    .ok (item :: items, values)

/-- `SyncSender::try_send_batch`: the ring moves out exactly the prefix it reports -/
def nativeTrySendBatch (link : Link) (values : Staged T) (w : Ledger T) : Except Fault (ℕ × Staged T × Ledger T) := do
  let k := min (link.free w.clock w.sent.length) values.length
  let (items, values) ← takeLoop k 0 values
  .ok (k, values, w.accept items)

/-- the blocking loop over the slots from `j` on; with `token` set it looks at the cancel token before every send -/
def sendRest (link : Link) (token : Bool) : ℕ → ℕ → Staged T → Ledger T → Except Fault (Bool × Staged T × Ledger T)
  | 0, _, _, _ => .error .looped
  | fuel + 1, j, st, w =>
    if j < st.length then
      let (stop, w) := if token then cancelActive link w else (false, w)
      if stop then do
        let (xs, st) ← dropFrom st j
        .ok (false, st, w.discard xs)
      else do
        let (item, st) ← read st j
        match send link item w with
        | (true, w) => sendRest link token fuel (j + 1) st w
        | (false, w) => do
          let (xs, st) ← dropFrom st (j + 1)
          .ok (false, st, w.discard xs)
    else .ok (true, st, w)

/-- a batch send of either kind -/
abbrev BatchSend (T : Type) := Staged T → Ledger T → Except Fault (ℕ × Staged T × Ledger T)

/-- the free prefix in one batch, then the blocking loop -/
def flushSlots (link : Link) (token : Bool) (batchSend : BatchSend T) (st : Staged T) (w : Ledger T) :
    Except Fault (Bool × Staged T × Ledger T) := do
  let (sent, st, w) ← batchSend st w
  sendRest link token (st.length + 1) sent st w

/-- `SendItem::send_batch`; the result is the returned flag with the batch and the staging vector after the call -/
def sendBatch (link : Link) (batchSend : BatchSend T) (batch : List T) (st : Staged T) (w : Ledger T) :
    Except Fault (Bool × List T × Staged T × Ledger T) :=
  if batch.isEmpty then .ok (true, batch, st, w)
  else do
    let (batch, st) ← stageBatch batch st
    let (ok, st, w) ← flushSlots link false batchSend st w
    .ok (ok, batch, st, w)

/-- `flush_staged` -/
def flushStaged (link : Link) (st : Staged T) (w : Ledger T) : Except Fault (Bool × Staged T × Ledger T) :=
  flushSlots link false (nativeTrySendBatch link) st w

/-- the per-item loop of `push_items`; what is left of the iterator is dropped on the way out -/
def pushEach (link : Link) : List T → Ledger T → Ledger T
  | [], w => w
  | x :: rest, w =>
    let (stop, w) := cancelActive link w
    if stop then w.discard (x :: rest)
    else match send link x w with
      | (true, w) => pushEach link rest w
      | (false, w) => w.discard rest

/-- the staging loop of `push_items`: up to `cap` items, `none` when the token stops it -/
def stageItems (link : Link) (cap : ℕ) : List T → Staged T → Ledger T → Except Fault (Option (List T × Staged T) × Ledger T)
  | [], st, w => .ok (some ([], st), w)
  | x :: rest, st, w =>
    let (stop, w) := cancelActive link w
    if stop then do
      let (xs, _) ← dropFrom st 0
      .ok (none, w.discard (xs ++ x :: rest))
    else
      let st := st ++ [.live x]
      if st.length = cap then .ok (some (rest, st), w) else stageItems link cap rest st w

/-- the batched loop of `push_items` -/
def pushBatches (link : Link) (cap : ℕ) : ℕ → List T → Staged T → Ledger T → Except Fault (Ledger T)
  | 0, _, _, _ => .error .looped
  | fuel + 1, items, st, w => do
    let st ← clear st
    match ← stageItems link cap items st w with
    | (none, w) => .ok w
    | (some (rest, st), w) =>
      if st.isEmpty then .ok w
      else do
        let (ok, st, w) ← flushSlots link true (nativeTrySendBatch link) st w
        if ok then pushBatches link cap fuel rest st w else .ok (w.discard rest)

/-- the tagged items of a feeder, `(0, x₀), (1, x₁), …` -/
def enumerate {I : Type} (items : List I) : List (ℕ × I) := items.zipIdx.map Prod.swap

/-- `push_items` -/
def pushItems {I : Type} (link : Link) (cap : ℕ) (items : List I) (w : Ledger (ℕ × I)) : Except Fault (Ledger (ℕ × I)) :=
  if cap = 0 then .ok (pushEach link (enumerate items) w)
  else pushBatches link cap (items.length + 1) (enumerate items) [] w

/-! ## Conservation -/

/-- a prefix of `items` was sent, in order, and the rest dropped, in order; nothing else was sent or dropped -/
def Conserves (items : List T) (w w' : Ledger T) : Prop :=
  ∃ k ≤ items.length, w'.sent = w.sent ++ items.take k ∧ w'.dropped = w.dropped ++ items.drop k

/-- all of `items` was sent, in order, and nothing dropped or refused -/
structure Delivers (items : List T) (w w' : Ledger T) : Prop where
  sent : w'.sent = w.sent ++ items
  dropped : w'.dropped = w.dropped
  refused : w'.refused = w.refused
  later : w.clock ≤ w'.clock

theorem Delivers.refl (w : Ledger T) : Delivers [] w w := ⟨by simp, rfl, rfl, le_rfl⟩

theorem Delivers.trans {xs ys : List T} {w w' w'' : Ledger T} (h : Delivers xs w w') (h' : Delivers ys w' w'') :
    Delivers (xs ++ ys) w w'' :=
  ⟨by rw [h'.sent, h.sent, List.append_assoc], h'.dropped.trans h.dropped, h'.refused.trans h.refused, h.later.trans h'.later⟩

theorem Delivers.conserves {xs : List T} {w w' : Ledger T} (h : Delivers xs w w') : Conserves xs w w' :=
  ⟨xs.length, le_rfl, by rw [List.take_length, h.sent], by simp [h.dropped]⟩

/-- what follows a full delivery -/
theorem Delivers.andThen {xs ys : List T} {w w' w'' : Ledger T} (h : Delivers xs w w') (h' : Conserves ys w' w'') :
    Conserves (xs ++ ys) w w'' := by
  obtain ⟨k, hk, hsent, hdropped⟩ := h'
  refine ⟨xs.length + k, by simpa using hk, ?_, ?_⟩
  · rw [hsent, h.sent, List.take_length_add_append, List.append_assoc]
  · rw [hdropped, h.dropped, List.drop_length_add_append]

/-- giving up on the rest -/
theorem Conserves.discard {xs : List T} {w w' : Ledger T} (h : Conserves xs w w') (ys : List T) :
    Conserves (xs ++ ys) w (w'.discard ys) := by
  obtain ⟨k, hk, hsent, hdropped⟩ := h
  refine ⟨k, by rw [List.length_append]; omega, ?_, ?_⟩
  · rw [List.take_append_of_le_length hk]
    exact hsent
  · rw [List.drop_append_of_le_length hk, ← List.append_assoc, ← hdropped]
    rfl

theorem conserves_nothing (items : List T) {w w' : Ledger T} (hs : w'.sent = w.sent) (hd : w'.dropped = w.dropped ++ items) :
    Conserves items w w' := ⟨0, Nat.zero_le _, by simp [hs], by simp [hd]⟩

/-! ## The batch sends -/

/-- the contract of a batch send: a prefix goes out, and exactly its slots are moved out -/
def Sends (batchSend : BatchSend T) : Prop :=
  ∀ (xs : List T) (w : Ledger T), ∃ k w', batchSend (staged 0 xs) w = .ok (k, staged k (xs.drop k), w') ∧ k ≤ xs.length ∧
    Delivers (xs.take k) w w'

theorem trySendLoop_spec (link : Link) (fuel : ℕ) : ∀ (n : ℕ) (xs : List T) (w : Ledger T), xs.length < fuel →
    ∃ k w', trySendLoop link fuel n (staged n xs) w = .ok (n + k, staged (n + k) (xs.drop k), w') ∧ k ≤ xs.length ∧
      Delivers (xs.take k) w w' ∧
      (w'.rebuffed = true → w.rebuffed = false → k < xs.length ∧ ∃ t < w'.clock, ∃ m, link.answer t m = .closed) := by
  induction fuel with
  | zero => intro n xs w hf; omega
  | succ fuel ih =>
    intro n xs w hf
    rcases xs with _ | ⟨x, xs⟩
    · refine ⟨0, w, ?_, le_rfl, Delivers.refl w, ?_⟩
      · simp [trySendLoop]
      · intro h h'
        rw [h'] at h
        cases h
    have hlt : n < (staged n (x :: xs)).length := by rw [length_staged, List.length_cons]; omega
    simp only [trySendLoop, hlt, if_true, read_staged, bind, Except.bind]
    rcases ha : link.answer w.clock w.sent.length with _ | _ | _
    · -- accepted: on to the next slot
      have hsend : trySend link x w = (none, w.accept [x]) := by simp [trySend, ha]
      obtain ⟨k, w', hrun, hk, hd, hreb⟩ := ih (n + 1) xs (w.accept [x]) (by simpa using hf)
      have hone : Delivers [x] w (w.accept [x]) := ⟨rfl, rfl, rfl, Nat.le_succ _⟩
      refine ⟨k + 1, w', ?_, by simpa using hk, hone.trans hd, ?_⟩
      · rw [hsend]
        simp only [List.drop_succ_cons]
        rw [hrun, show n + 1 + k = n + (k + 1) by omega]
      · intro h h'
        obtain ⟨hlt', hex⟩ := hreb h h'
        exact ⟨by simpa using hlt', hex⟩
    · -- full: the item goes back into its slot
      have hsend : trySend link x w = (some x, w.tick) := by simp [trySend, ha]
      refine ⟨0, w.tick, ?_, Nat.zero_le _, ⟨by simp [Ledger.tick], rfl, rfl, Nat.le_succ _⟩, ?_⟩
      · rw [hsend]
        simp only [write_staged, Nat.add_zero, List.drop_zero]
      · intro h h'
        rw [Ledger.tick, h'] at h
        cases h
    · have hsend : trySend link x w = (some x, { w.tick with rebuffed := true }) := by simp [trySend, ha]
      refine ⟨0, { w.tick with rebuffed := true }, ?_, Nat.zero_le _, ⟨by simp [Ledger.tick], rfl, rfl, Nat.le_succ _⟩, ?_⟩
      · rw [hsend]
        simp only [write_staged, Nat.add_zero, List.drop_zero]
      · intro _ _
        exact ⟨by simp, w.clock, Nat.lt_succ_self _, w.sent.length, ha⟩

theorem sends_trySendBatch (link : Link) : Sends (trySendBatch link : BatchSend T) := by
  intro xs w
  obtain ⟨k, w', hrun, hk, hd, -⟩ := trySendLoop_spec link (xs.length + 1) 0 xs w (Nat.lt_succ_self _)
  refine ⟨k, w', ?_, hk, hd⟩
  rw [trySendBatch, length_staged, Nat.zero_add, hrun, Nat.zero_add]

theorem takeLoop_spec (k : ℕ) : ∀ (n : ℕ) (xs : List T), k ≤ xs.length →
    takeLoop k n (staged n xs) = .ok (xs.take k, staged (n + k) (xs.drop k)) := by
  induction k with
  | zero => intro n xs _; simp [takeLoop]
  | succ k ih =>
    intro n xs hk
    rcases xs with _ | ⟨x, xs⟩
    · simp at hk
    simp only [takeLoop, read_staged, bind, Except.bind, ih (n + 1) xs (by simpa using hk), List.take_succ_cons,
      List.drop_succ_cons]
    rw [show n + 1 + k = n + (k + 1) by omega]

theorem nativeTrySendBatch_staged (link : Link) (xs : List T) (w : Ledger T) :
    nativeTrySendBatch link (staged 0 xs) w =
      .ok (min (link.free w.clock w.sent.length) xs.length,
        staged (min (link.free w.clock w.sent.length) xs.length) (xs.drop (min (link.free w.clock w.sent.length) xs.length)),
        w.accept (xs.take (min (link.free w.clock w.sent.length) xs.length))) := by
  have hlen : (staged 0 xs).length = xs.length := by rw [length_staged, Nat.zero_add]
  simp only [nativeTrySendBatch, hlen, takeLoop_spec _ 0 xs (min_le_right _ _), bind, Except.bind, Nat.zero_add]

theorem sends_native (link : Link) : Sends (nativeTrySendBatch link : BatchSend T) := by
  intro xs w
  exact ⟨_, _, nativeTrySendBatch_staged link xs w, min_le_right _ _, rfl, rfl, rfl, Nat.le_succ _⟩

/-! ## The blocking loop -/

/-- the look at the token, where there is one, moves nothing -/
theorem check_spec (link : Link) (token : Bool) (w : Ledger T) : ∃ stop w', (if token then cancelActive link w else (false, w)) =
    (stop, w') ∧ Delivers [] w w' ∧ w'.rebuffed = w.rebuffed ∧ (stop = true → token = true ∧ link.cancelled w.clock = true) := by
  rcases token with _ | _
  · exact ⟨false, w, rfl, Delivers.refl w, rfl, by simp⟩
  · exact ⟨link.cancelled w.clock, w.tick, rfl, ⟨by simp [Ledger.tick], rfl, rfl, Nat.le_succ _⟩, rfl, fun h => ⟨rfl, h⟩⟩

theorem send_closed {link : Link} {w : Ledger T} (x : T) (h : link.answer w.clock w.sent.length = .closed) :
    send link x w = (false, { w.tick.discard [x] with refused := true, rebuffed := true }) := by
  simp [send, h]

theorem send_ok {link : Link} {w : Ledger T} (x : T) (h : link.answer w.clock w.sent.length ≠ .closed) :
    send link x w = (true, w.accept [x]) := by
  unfold send
  rcases ha : link.answer w.clock w.sent.length with _ | _ | _
  · rfl
  · rfl
  · exact absurd ha h

theorem sendRest_spec (link : Link) (token : Bool) (fuel : ℕ) : ∀ (j : ℕ) (xs : List T) (w : Ledger T), xs.length < fuel →
    ∃ ok m w', sendRest link token fuel j (staged j xs) w = .ok (ok, staged m [], w') ∧ Conserves xs w w' ∧
      (ok = true → Delivers xs w w' ∧ w'.rebuffed = w.rebuffed) ∧
      (ok = false → (token = true ∧ ∃ t, link.cancelled t = true) ∨
        (w'.refused = true ∧ w'.rebuffed = true ∧ ∃ t ≥ w.clock, ∃ m, link.answer t m = .closed)) ∧
      (token = false → xs ≠ [] → link.answer w.clock w.sent.length = .closed → ok = false) := by
  induction fuel with
  | zero => intro j xs w hf; omega
  | succ fuel ih =>
    intro j xs w hf
    rcases xs with _ | ⟨x, xs⟩
    · refine ⟨true, j, w, ?_, (Delivers.refl w).conserves, fun _ => ⟨Delivers.refl w, rfl⟩, by simp, by simp⟩
      simp [sendRest]
    have hlt : j < (staged j (x :: xs)).length := by rw [length_staged, List.length_cons]; omega
    obtain ⟨stop, w1, hcheck, hdel, hreb, hstop⟩ := check_spec link token w
    simp only [sendRest, hlt, if_true, hcheck]
    rcases stop with _ | _
    · -- not stopped: read the slot and send
      simp only [Bool.false_eq_true, if_false, read_staged, bind, Except.bind]
      by_cases hclosed : link.answer w1.clock w1.sent.length = .closed
      · refine ⟨false, j + 1 + xs.length, (({ w1.tick.discard [x] with refused := true, rebuffed := true } : Ledger T).discard xs),
          ?_, ?_, by simp, fun _ => Or.inr ⟨rfl, rfl, w1.clock, hdel.later, w1.sent.length, hclosed⟩, fun _ _ _ => rfl⟩
        · rw [send_closed x hclosed]
          simp only [dropFrom_staged]
        · exact (hdel.conserves.discard [x]).discard xs
      · obtain ⟨ok, m, w', hrun, hcons, htrue, hfalse, -⟩ := ih (j + 1) xs (w1.accept [x]) (by simpa using hf)
        have hone : Delivers [x] w1 (w1.accept [x]) := ⟨rfl, rfl, rfl, Nat.le_succ _⟩
        have hstep : Delivers [x] w (w1.accept [x]) := hdel.trans hone
        refine ⟨ok, m, w', ?_, hstep.andThen hcons, ?_, ?_, ?_⟩
        · rw [send_ok x hclosed]
          exact hrun
        · intro hok
          obtain ⟨hd, hr⟩ := htrue hok
          exact ⟨hstep.trans hd, hr.trans hreb⟩
        · intro hok
          rcases hfalse hok with hc | ⟨h1, h2, t, ht, hex⟩
          · exact Or.inl hc
          · exact Or.inr ⟨h1, h2, t, hstep.later.trans ht, hex⟩
        · rintro rfl - hnow
          simp only [Bool.false_eq_true, if_false, Prod.mk.injEq] at hcheck
          rw [← hcheck.2] at hclosed
          exact absurd hnow hclosed
    · -- the token is set: what is staged from here on is dropped
      obtain ⟨rfl, hset⟩ := hstop rfl
      refine ⟨false, j + (x :: xs).length, w1.discard (x :: xs), ?_, ?_, by simp, fun _ => Or.inl ⟨rfl, w.clock, hset⟩, by simp⟩
      · simp only [if_true, dropFrom_staged, bind, Except.bind]
      · exact hdel.conserves.discard (x :: xs)

/-- **One batch**: the free prefix and the blocking loop together -/
theorem flushSlots_spec (link : Link) (token : Bool) {batchSend : BatchSend T} (hb : Sends batchSend) (xs : List T) (w : Ledger T) :
    ∃ ok m w', flushSlots link token batchSend (staged 0 xs) w = .ok (ok, staged m [], w') ∧ Conserves xs w w' ∧
      (ok = true → Delivers xs w w') ∧
      (ok = false → (token = true ∧ ∃ t, link.cancelled t = true) ∨ (w'.refused = true ∧ ∃ t m, link.answer t m = .closed)) := by
  obtain ⟨k, w1, hsend, hk, hdel⟩ := hb xs w
  obtain ⟨ok, m, w', hrun, hcons, htrue, hfalse, -⟩ := sendRest_spec link token ((staged k (xs.drop k)).length + 1) k (xs.drop k) w1
    (by rw [length_staged]; omega)
  refine ⟨ok, m, w', ?_, ?_, ?_, ?_⟩
  · simp only [flushSlots, hsend, bind, Except.bind]
    exact hrun
  · have h := hdel.andThen hcons
    rwa [List.take_append_drop] at h
  · intro hok
    have h := hdel.trans (htrue hok).1
    rwa [List.take_append_drop] at h
  · intro hok
    rcases hfalse hok with hc | ⟨hr, -, t, -, hex⟩
    · exact Or.inl hc
    · exact Or.inr ⟨hr, t, hex⟩

/-- a channel that has reported closed stays closed -/
def Permanent (link : Link) : Prop := ∀ t t' m m', t ≤ t' → link.answer t m = .closed → link.answer t' m' = .closed

/-- without a token the batch fails exactly when a blocking send was refused, and otherwise all of it is sent -/
theorem flushSlots_refused (link : Link) {batchSend : BatchSend T} (hb : Sends batchSend) (xs : List T) {w : Ledger T}
    (hw : w.refused = false) :
    ∃ ok m w', flushSlots link false batchSend (staged 0 xs) w = .ok (ok, staged m [], w') ∧ Conserves xs w w' ∧
      (ok = true → Delivers xs w w') ∧ (ok = false ↔ w'.refused = true) := by
  obtain ⟨ok, m, w', hrun, hcons, htrue, hfalse⟩ := flushSlots_spec link false hb xs w
  refine ⟨ok, m, w', hrun, hcons, htrue, ?_, ?_⟩
  · intro hok
    rcases hfalse hok with ⟨hc, -⟩ | ⟨hr, -⟩
    · cases hc
    · exact hr
  · intro hr
    by_contra hok
    have hdel := htrue (Bool.eq_true_of_not_eq_false hok)
    rw [hdel.refused, hw] at hr
    cases hr

/-- on a channel that stays closed, the default batch send fails exactly when any send, blocking or not, was told so -/
theorem flushSlots_rebuffed {link : Link} (hperm : Permanent link) {xs : List T} {w w' : Ledger T} (hw : w.rebuffed = false)
    {ok : Bool} {st : Staged T} (hrun : flushSlots link false (trySendBatch link) (staged 0 xs) w = .ok (ok, st, w')) :
    ok = false ↔ w'.rebuffed = true := by
  obtain ⟨k, w1, hsend, hk, hdel, hreb⟩ := trySendLoop_spec link (xs.length + 1) 0 xs w (Nat.lt_succ_self _)
  obtain ⟨ok', m, w2, hrest, -, htrue, hfalse, hnow⟩ := sendRest_spec link false ((staged k (xs.drop k)).length + 1) k (xs.drop k) w1
    (by rw [length_staged]; omega)
  have hsend' : trySendBatch link (staged 0 xs) w = .ok (k, staged k (xs.drop k), w1) := by
    rw [trySendBatch, length_staged, Nat.zero_add, hsend, Nat.zero_add]
  have hsame : flushSlots link false (trySendBatch link) (staged 0 xs) w = .ok (ok', staged m [], w2) := by
    simp only [flushSlots, hsend', bind, Except.bind]
    exact hrest
  rw [hsame] at hrun
  cases hrun
  constructor
  · intro hok
    rcases hfalse hok with ⟨hc, -⟩ | ⟨-, hr, -⟩
    · cases hc
    · exact hr
  · intro hr
    by_contra hok
    obtain ⟨-, hsameReb⟩ := htrue (Bool.eq_true_of_not_eq_false hok)
    obtain ⟨hlt, t, ht, n, hclosed⟩ := hreb (hsameReb ▸ hr) hw
    have hne : xs.drop k ≠ [] := by
      intro hnil
      rw [List.drop_eq_nil_iff] at hnil
      omega
    exact hok (hnow rfl hne (hperm t w1.clock n _ ht.le hclosed))

/-! ## The feeder -/

theorem pushEach_spec (link : Link) (items : List T) : ∀ w : Ledger T, Conserves items w (pushEach link items w) ∧
    ((∀ t m, link.answer t m ≠ .closed) → (∀ t, link.cancelled t = false) → Delivers items w (pushEach link items w)) := by
  induction items with
  | nil => intro w; exact ⟨(Delivers.refl w).conserves, fun _ _ => Delivers.refl w⟩
  | cons x rest ih =>
    intro w
    by_cases hc : link.cancelled w.clock = true
    · have hrun : pushEach link (x :: rest) w = w.tick.discard (x :: rest) := by simp [pushEach, cancelActive, hc]
      rw [hrun]
      exact ⟨conserves_nothing _ rfl rfl, fun _ hnc => absurd hc (by rw [hnc]; exact Bool.false_ne_true)⟩
    by_cases hclosed : link.answer w.tick.clock w.tick.sent.length = .closed
    · have hrun : pushEach link (x :: rest) w =
          ({ w.tick.tick.discard [x] with refused := true, rebuffed := true } : Ledger T).discard rest := by
        simp [pushEach, cancelActive, hc, send_closed x hclosed]
      rw [hrun]
      refine ⟨conserves_nothing _ rfl ?_, fun hopen => absurd hclosed (hopen _ _)⟩
      show w.dropped ++ [x] ++ rest = w.dropped ++ x :: rest
      rw [List.append_assoc, List.singleton_append]
    · have hrun : pushEach link (x :: rest) w = pushEach link rest (w.tick.accept [x]) := by
        simp [pushEach, cancelActive, hc, send_ok x hclosed]
      have hone : Delivers [x] w (w.tick.accept [x]) := ⟨rfl, rfl, rfl, (Nat.le_succ _).trans (Nat.le_succ _)⟩
      obtain ⟨hcons, hall⟩ := ih (w.tick.accept [x])
      rw [hrun]
      exact ⟨hone.andThen hcons, fun hopen hnc => hone.trans (hall hopen hnc)⟩

/-- the staging loop fills the vector up to `cap` with the next items, or gives everything up -/
theorem stageItems_spec (link : Link) {cap : ℕ} (items : List T) : ∀ (acc : List T) (w : Ledger T), acc.length < cap →
    ∃ w', Delivers [] w w' ∧
      ((∃ took rest, stageItems link cap items (staged 0 acc) w = .ok (some (rest, staged 0 (acc ++ took)), w') ∧
          items = took ++ rest ∧ (took = [] → items = [])) ∨
        ((∃ t, link.cancelled t = true) ∧
          stageItems link cap items (staged 0 acc) w = .ok (none, w'.discard (acc ++ items)))) := by
  induction items with
  | nil =>
    intro acc w _
    exact ⟨w, Delivers.refl w, Or.inl ⟨[], [], by simp [stageItems], rfl, fun _ => rfl⟩⟩
  | cons x rest ih =>
    intro acc w hacc
    have htick : Delivers [] w w.tick := ⟨by simp [Ledger.tick], rfl, rfl, Nat.le_succ _⟩
    by_cases hc : link.cancelled w.clock = true
    · refine ⟨w.tick, htick, Or.inr ⟨⟨w.clock, hc⟩, ?_⟩⟩
      simp only [stageItems, cancelActive, hc, if_true, dropFrom_staged, bind, Except.bind]
    · have hgo : link.cancelled w.clock = false := Bool.eq_false_of_not_eq_true hc
      have hpush : staged 0 acc ++ [Slot.live x] = staged 0 (acc ++ [x]) := by simp [staged]
      by_cases hfull : (acc ++ [x]).length = cap
      · refine ⟨w.tick, htick, Or.inl ⟨[x], rest, ?_, rfl, by simp⟩⟩
        have hlen : (staged 0 (acc ++ [x])).length = cap := by rw [length_staged, Nat.zero_add, hfull]
        simp only [stageItems, cancelActive, hgo, Bool.false_eq_true, if_false, hpush, hlen, if_true]
      · have hlen : (staged 0 (acc ++ [x])).length ≠ cap := by rw [length_staged, Nat.zero_add]; exact hfull
        have hrun : stageItems link cap (x :: rest) (staged 0 acc) w =
            stageItems link cap rest (staged 0 (acc ++ [x])) w.tick := by
          simp only [stageItems, cancelActive, hgo, Bool.false_eq_true, if_false, hpush, hlen]
        have hroom : (acc ++ [x]).length < cap := by
          rw [List.length_append, List.length_singleton] at hfull ⊢
          omega
        obtain ⟨w', hdel, hres⟩ := ih (acc ++ [x]) w.tick hroom
        refine ⟨w', htick.trans hdel, ?_⟩
        rw [hrun]
        rcases hres with ⟨took, rest', hok, rfl, -⟩ | ⟨hset, hok⟩
        · exact Or.inl ⟨x :: took, rest', by rw [hok, List.append_assoc, List.singleton_append], rfl, by simp⟩
        · exact Or.inr ⟨hset, by rw [hok, List.append_assoc, List.singleton_append]⟩

theorem pushBatches_spec (link : Link) {cap : ℕ} (hcap : 0 < cap) (fuel : ℕ) : ∀ (items : List T) (st : Staged T) (w : Ledger T),
    Spent st → items.length < fuel →
    ∃ w', pushBatches link cap fuel items st w = .ok w' ∧ Conserves items w w' ∧
      ((∀ t m, link.answer t m ≠ .closed) → (∀ t, link.cancelled t = false) → Delivers items w w') := by
  induction fuel with
  | zero => intro items st w _ hf; omega
  | succ fuel ih =>
    intro items st w hst hf
    obtain ⟨w1, hdel, hres⟩ := stageItems_spec link items [] w hcap
    have hempty : staged 0 ([] : List T) = [] := rfl
    rw [hempty] at hres
    rcases hres with ⟨took, rest, hok, rfl, htook⟩ | ⟨⟨t, hset⟩, hok⟩
    · rw [List.nil_append] at hok
      rcases took with _ | ⟨x, took⟩
      · -- nothing staged: the iterator is done
        obtain rfl : rest = [] := htook rfl
        refine ⟨w1, ?_, hdel.conserves, fun _ _ => hdel⟩
        simp only [pushBatches, clear_spent hst, hok, bind, Except.bind, hempty, List.isEmpty_nil, if_true]
      · obtain ⟨ok, m, w2, hflush, hcons, htrue, hfalse⟩ := flushSlots_spec link true (sends_native link) (x :: took) w1
        have hne : (staged 0 (x :: took)).isEmpty = false := by simp [staged]
        have hrun : pushBatches link cap (fuel + 1) (x :: took ++ rest) st w =
            if ok then pushBatches link cap fuel rest (staged m []) w2 else .ok (w2.discard rest) := by
          simp only [pushBatches, clear_spent hst, hok, bind, Except.bind, hne, hflush, Bool.false_eq_true, if_false]
        rcases ok with _ | _
        · refine ⟨w2.discard rest, by rw [hrun]; rfl, hdel.andThen (hcons.discard rest), ?_⟩
          intro hopen hnc
          rcases hfalse rfl with ⟨-, t, ht⟩ | ⟨-, t, m', hm⟩
          · rw [hnc] at ht
            cases ht
          · exact absurd hm (hopen t m')
        · have hfl := htrue rfl
          obtain ⟨w', hpush, hcons', hall⟩ := ih rest (staged m []) w2 (spent_staged m) (by
            rw [List.length_append, List.length_cons] at hf
            omega)
          have hboth : Delivers (x :: took) w w2 := hdel.trans hfl
          exact ⟨w', by rw [hrun]; exact hpush, hboth.andThen hcons', fun hopen hnc => hboth.trans (hall hopen hnc)⟩
    · refine ⟨w1.discard items, ?_, ?_, fun _ hnc => by rw [hnc] at hset; cases hset⟩
      · simp only [pushBatches, clear_spent hst, hok, bind, Except.bind, List.nil_append]
      · exact hdel.conserves.discard items

/-! ## Results -/

/-- a channel that accepts two items, is full once, and is closed from the fourth call on -/
def closing : Link where
  answer t _ := if t < 2 then .accepts else if t = 2 then .full else .closed
  free _ _ := 0
  cancelled _ := false

end YouPipe.Handoff
