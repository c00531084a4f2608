/-
Broadcast fan-out (`Broadcast` in `graph/fanin.rs`, `AsyncBroadcast` in `graph/async_exec.rs`). A worker sends every item to
every out-edge: clones to all but the last, the item itself to the last. An edge whose channel reports closed is taken out of
the vector with `swap_remove` and the others are served on. A batch goes to one edge after the other, through `flush_staged`.

Every edge has a channel of its own, a `Link` that may be full or close at any call. `Broadcast` keeps what every edge was sent
and, for the statements only, the order in which edges were visited.

- `broadcast_delivers`: over any run of sends and batch sends each edge is visited once per send; an edge that is left has all
  items in order, an edge that was closed a prefix; a send returns false exactly when no edge is left. When every edge closes
  after a number of accepted items, a batch and its items one by one leave the same edges with the same items. The async twin
  keeps senders and waker slots aligned at every await, and otherwise does what the blocking one does.
-/
import Mathlib.Tactic
import YouPipe.Core.Sweep
import YouPipe.Handoff.Batch

namespace YouPipe.FanOut

open YouPipe.RawVec YouPipe.Handoff YouPipe.Sweep

/-! ## Model -/

variable {E T : Type}

/-- the edges' side: what became of the items of each, the staging vector, and the visits made -/
structure Wires (E T : Type) where
  ledger : E → Ledger T
  staged : Staged T
  visits : List E

/-- one call on edge `e` -/
def Wires.visit [DecidableEq E] (s : Wires E T) (e : E) (w : Ledger T) (st : Staged T) : Wires E T :=
  ⟨Function.update s.ledger e w, st, s.visits ++ [e]⟩

/-- `self.txs[i].send(item)`, of a clone or of the item itself -/
def sendEdge [DecidableEq E] (links : E → Link) (item : T) (e : E) (s : Wires E T) : Except Fault (Bool × Wires E T) :=
  let (ok, w) := Handoff.send (links e) item (s.ledger e)
  .ok (ok, s.visit e w s.staged)

/-- clones of the batch, staged and flushed through one edge -/
def flushClones [DecidableEq E] (links : E → Link) (batch : List T) (e : E) (s : Wires E T) :
    Except Fault (Bool × Wires E T) := do
  let st ← clear s.staged
  let (ok, st, w) ← flushStaged (links e) (st ++ batch.map .live) (s.ledger e)
  .ok (ok, s.visit e w st)

/-- the batch itself, staged and flushed through the last edge -/
def flushOwned [DecidableEq E] (links : E → Link) (batch : List T) (e : E) (s : Wires E T) :
    Except Fault (Bool × Wires E T) := do
  let (_, st) ← stageBatch batch s.staged
  let (ok, st, w) ← flushStaged (links e) st (s.ledger e)
  .ok (ok, s.visit e w st)

/-- `Broadcast`: the edges still served -/
structure Broadcast (E T : Type) where
  txs : List E
  wires : Wires E T

/-- `Broadcast::new` -/
def Broadcast.new (txs : List E) : Broadcast E T := ⟨txs, ⟨fun _ => Ledger.fresh, [], []⟩⟩

/-- `Broadcast::send` -/
def Broadcast.send [DecidableEq E] (links : E → Link) (item : T) (b : Broadcast E T) : Except Fault (Bool × Broadcast E T) := do
  let (more, txs, wires) ← visitAll (sendEdge links item) (sendEdge links item) b.txs b.wires
  .ok (more, ⟨txs, wires⟩)

/-- `Broadcast::send_batch` -/
def Broadcast.sendBatch [DecidableEq E] (links : E → Link) (batch : List T) (b : Broadcast E T) :
    Except Fault (Bool × Broadcast E T) := do
  let (more, txs, wires) ← visitAll (flushClones links batch) (flushOwned links batch) b.txs b.wires
  .ok (more, ⟨txs, wires⟩)

/-- what a worker asks of its broadcast -/
inductive Op (T : Type) where
  | one (item : T)
  | batch (items : List T)
deriving DecidableEq, Repr

def Op.items : Op T → List T
  | .one item => [item]
  | .batch items => items

def Broadcast.step [DecidableEq E] (links : E → Link) (b : Broadcast E T) : Op T → Except Fault (Bool × Broadcast E T)
  | .one item => b.send links item
  | .batch items => b.sendBatch links items

/-- the sends of a worker, which leaves when one returns false -/
def Broadcast.run [DecidableEq E] (links : E → Link) : List (Op T) → Broadcast E T → Except Fault (Bool × Broadcast E T)
  | [], b => .ok (true, b)
  | op :: ops, b => do
    let (more, b) ← b.step links op
    if more then Broadcast.run links ops b else .ok (false, b)

/-- `AsyncBroadcast`: each waker slot goes by the edge it was made for; `polls` are the two vectors at every await -/
structure AsyncBroadcast (E T : Type) where
  txs : List E
  slots : List E
  wires : Wires E T
  polls : List (List E × List E)

/-- `AsyncBroadcast::new` -/
def AsyncBroadcast.new (txs : List E) : AsyncBroadcast E T := ⟨txs, txs, ⟨fun _ => Ledger.fresh, [], []⟩, []⟩

/-- `self.txs[i].send_cached(item, &mut self.slots[i]).await`, and the two `swap_remove`s when it fails -/
def AsyncBroadcast.sendCached [DecidableEq E] (links : E → Link) (item : T) (i : ℕ) (b : AsyncBroadcast E T) :
    Except Fault (Bool × AsyncBroadcast E T) :=
  match b.txs[i]?, b.slots[i]? with
  | some e, some _ => do
    let (ok, wires) ← sendEdge links item e b.wires
    let b := { b with wires := wires, polls := b.polls ++ [(b.txs, b.slots)] }
    if ok then .ok (true, b)
    else do
      let txs ← swapRemove b.txs i
      let slots ← swapRemove b.slots i
      .ok (false, { b with txs := txs, slots := slots })
  | _, _ => .error .outOfBounds

/-- the loop of `AsyncBroadcast::send` -/
def AsyncBroadcast.sendLoop [DecidableEq E] (links : E → Link) (item : T) :
    ℕ → ℕ → AsyncBroadcast E T → Except Fault (AsyncBroadcast E T)
  | 0, _, _ => .error .looped
  | fuel + 1, i, b =>
    if i + 1 < b.txs.length then do
      let (ok, b) ← b.sendCached links item i
      AsyncBroadcast.sendLoop links item fuel (if ok then i + 1 else i) b
    else .ok b

/-- `AsyncBroadcast::send` -/
def AsyncBroadcast.send [DecidableEq E] (links : E → Link) (item : T) (b : AsyncBroadcast E T) :
    Except Fault (Bool × AsyncBroadcast E T) := do
  let b ← AsyncBroadcast.sendLoop links item (b.txs.length + 1) 0 b
  if b.txs.isEmpty then .ok (false, b)
  else do
    let (_, b) ← b.sendCached links item (b.txs.length - 1)
    .ok (!b.txs.isEmpty, b)

/-- the sends of a task, which leaves when one returns false -/
def AsyncBroadcast.run [DecidableEq E] (links : E → Link) :
    List T → AsyncBroadcast E T → Except Fault (Bool × AsyncBroadcast E T)
  | [], b => .ok (true, b)
  | item :: items, b => do
    let (more, b) ← b.send links item
    if more then AsyncBroadcast.run links items b else .ok (false, b)

/-! ## One edge -/

/-- the edge's channel closes by the number of items it has accepted: from any count on that `shut` marks -/
def Shuts (link : Link) (shut : ℕ → Bool) : Prop :=
  (∀ t m, link.answer t m = .closed ↔ shut m = true) ∧ ∀ t m j, j < link.free t m → shut (m + j) = false

/-- what such an edge takes of `xs` after `m` items, and whether it survives -/
def through (shut : ℕ → Bool) : ℕ → List T → List T × Bool
  | _, [] => ([], true)
  | m, x :: xs => if shut m then ([], false) else (x :: (through shut (m + 1) xs).1, (through shut (m + 1) xs).2)

theorem through_open {shut : ℕ → Bool} (xs ys : List T) : ∀ m : ℕ, (∀ j < xs.length, shut (m + j) = false) →
    through shut m (xs ++ ys) = (xs ++ (through shut (m + xs.length) ys).1, (through shut (m + xs.length) ys).2) := by
  induction xs with
  | nil => intro m _; simp
  | cons x xs ih =>
    intro m h
    have hx : shut m = false := h 0 (by simp)
    have hxs := ih (m + 1) fun j hj => by
      rw [Nat.add_assoc, Nat.add_comm 1 j]
      exact h (j + 1) (by simpa using hj)
    have hlen : m + 1 + xs.length = m + (x :: xs).length := by rw [List.length_cons]; omega
    rw [hlen] at hxs
    rw [List.cons_append, through, hx, if_neg Bool.false_ne_true, hxs]
    rfl

/-- an edge that survives has taken everything -/
theorem through_true {shut : ℕ → Bool} (xs : List T) : ∀ m : ℕ, (through shut m xs).2 = true →
    (through shut m xs).1 = xs ∧ ∀ j < xs.length, shut (m + j) = false := by
  induction xs with
  | nil => intro m _; simp [through]
  | cons x xs ih =>
    intro m h
    rcases hx : shut m with _ | _
    · rw [through, hx, if_neg Bool.false_ne_true] at h ⊢
      obtain ⟨hall, hfree⟩ := ih (m + 1) h
      refine ⟨by rw [hall], ?_⟩
      intro j hj
      rcases j with _ | j
      · exact hx
      · rw [← Nat.add_assoc, Nat.add_right_comm]
        exact hfree j (by simpa using hj)
    · rw [through, hx, if_pos rfl] at h
      cases h

/-- an edge that is gone takes nothing more -/
theorem through_false {shut : ℕ → Bool} (xs ys : List T) : ∀ m : ℕ, (through shut m xs).2 = false →
    through shut m (xs ++ ys) = through shut m xs := by
  induction xs with
  | nil => intro m h; cases h
  | cons x xs ih =>
    intro m h
    rcases hx : shut m with _ | _
    · rw [through, hx, if_neg Bool.false_ne_true] at h
      rw [List.cons_append, through, through, hx, if_neg Bool.false_ne_true, if_neg Bool.false_ne_true, ih (m + 1) h]
    · rw [List.cons_append, through, through, hx, if_pos rfl, if_pos rfl]

/-- the outcome of sending `xs` through one edge: all of it, or a prefix when the channel closed -/
structure Served (link : Link) (xs : List T) (ok : Bool) (w w' : Ledger T) : Prop where
  all : ok = true → w'.sent = w.sent ++ xs
  part : ok = false → (∃ k, w'.sent = w.sent ++ xs.take k) ∧ ∃ t m, link.answer t m = .closed
  counted : ∀ shut, Shuts link shut →
    w'.sent = w.sent ++ (through shut w.sent.length xs).1 ∧ ok = (through shut w.sent.length xs).2

theorem served_send (link : Link) (x : T) (w : Ledger T) :
    ∃ ok w', Handoff.send link x w = (ok, w') ∧ Served link [x] ok w w' := by
  by_cases hclosed : link.answer w.clock w.sent.length = .closed
  · refine ⟨_, _, send_closed x hclosed, by simp, fun _ => ⟨⟨0, by simp [Ledger.discard, Ledger.tick]⟩, _, _, hclosed⟩, ?_⟩
    intro shut hshut
    have hs := (hshut.1 _ _).1 hclosed
    simp [through, hs, Ledger.discard, Ledger.tick]
  · refine ⟨_, _, send_ok x hclosed, fun _ => rfl, by simp, ?_⟩
    intro shut hshut
    have hs : shut w.sent.length = false := by
      rw [← Bool.not_eq_true]
      exact fun h => hclosed ((hshut.1 _ _).2 h)
    simp [through, hs, Ledger.accept]

theorem sendRest_counted {link : Link} {shut : ℕ → Bool} (hshut : Shuts link shut) (fuel : ℕ) :
    ∀ (j : ℕ) (xs : List T) (w : Ledger T), xs.length < fuel →
      ∃ m w', sendRest link false fuel j (staged j xs) w = .ok ((through shut w.sent.length xs).2, staged m [], w') ∧
        w'.sent = w.sent ++ (through shut w.sent.length xs).1 := by
  induction fuel with
  | zero => intro j xs w hf; omega
  | succ fuel ih =>
    intro j xs w hf
    rcases xs with _ | ⟨x, xs⟩
    · refine ⟨j, w, ?_, by simp [through]⟩
      simp [sendRest, through]
    have hlt : j < (staged j (x :: xs)).length := by rw [length_staged, List.length_cons]; omega
    rcases hs : shut w.sent.length with _ | _
    · have hopen : link.answer w.clock w.sent.length ≠ .closed := by
        rw [ne_eq, hshut.1, hs]
        exact Bool.false_ne_true
      obtain ⟨m, w', hrun, hsent⟩ := ih (j + 1) xs (w.accept [x]) (by simpa using hf)
      have hcount : (w.accept [x]).sent.length = w.sent.length + 1 := by simp [Ledger.accept]
      rw [hcount] at hrun hsent
      refine ⟨m, w', ?_, ?_⟩
      · simp only [sendRest, hlt, if_true, Bool.false_eq_true, if_false, read_staged, bind, Except.bind, send_ok x hopen, hrun,
          through, hs]
      · rw [hsent, through, hs, if_neg Bool.false_ne_true]
        simp [Ledger.accept]
    · refine ⟨j + 1 + xs.length, ({ w.tick.discard [x] with refused := true, rebuffed := true } : Ledger T).discard xs, ?_, ?_⟩
      · simp only [sendRest, hlt, if_true, Bool.false_eq_true, if_false, read_staged, bind, Except.bind,
          send_closed x ((hshut.1 _ _).2 hs), dropFrom_staged, through, hs]
      · simp [through, hs, Ledger.discard, Ledger.tick]

theorem served_flush (link : Link) (xs : List T) (w : Ledger T) :
    ∃ ok m w', flushStaged link (staged 0 xs) w = .ok (ok, staged m [], w') ∧ Served link xs ok w w' := by
  obtain ⟨ok, m, w', hrun, hcons, htrue, hfalse⟩ := flushSlots_spec link false (sends_native link) xs w
  refine ⟨ok, m, w', hrun, fun hok => (htrue hok).sent, ?_, ?_⟩
  · intro hok
    obtain ⟨k, -, hsent, -⟩ := hcons
    rcases hfalse hok with ⟨hc, -⟩ | ⟨-, hclosed⟩
    · cases hc
    · exact ⟨⟨k, hsent⟩, hclosed⟩
  · intro shut hshut
    -- the ring takes a prefix while nothing is shut, the blocking sends the rest up to where it is
    obtain ⟨k, hk⟩ : ∃ k, k = min (link.free w.clock w.sent.length) xs.length := ⟨_, rfl⟩
    have hle : k ≤ xs.length := by rw [hk]; exact min_le_right _ _
    have hnative := nativeTrySendBatch_staged link xs w
    rw [← hk] at hnative
    obtain ⟨m', w2, hrest, hsent⟩ := sendRest_counted hshut ((staged k (xs.drop k)).length + 1) k (xs.drop k)
      (w.accept (xs.take k)) (by rw [length_staged]; omega)
    have hfree : ∀ j < (xs.take k).length, shut (w.sent.length + j) = false := by
      intro j hj
      rw [List.length_take] at hj
      exact hshut.2 w.clock w.sent.length j (by omega)
    have hthrough := through_open (xs.take k) (xs.drop k) w.sent.length hfree
    rw [List.take_append_drop] at hthrough
    have hcount : (w.accept (xs.take k)).sent.length = w.sent.length + (xs.take k).length := by simp [Ledger.accept]
    rw [hcount] at hrest hsent
    have hsame : flushSlots link false (nativeTrySendBatch link) (staged 0 xs) w =
        .ok ((through shut (w.sent.length + (xs.take k).length) (xs.drop k)).2, staged m' [], w2) := by
      simp only [flushSlots, hnative, bind, Except.bind]
      exact hrest
    rw [hsame] at hrun
    simp only [Except.ok.injEq, Prod.mk.injEq] at hrun
    obtain ⟨rfl, -, rfl⟩ := hrun
    rw [hthrough, hsent]
    simp [Ledger.accept]

/-! ## One send -/

/-- what a visit of edge `e` does: its own ledger changes as `Served` says, the others stay -/
structure Visited (links : E → Link) (xs : List T) (e : E) (ok : Bool) (s s' : Wires E T) : Prop where
  visits : s'.visits = s.visits ++ [e]
  others : ∀ e' ≠ e, s'.ledger e' = s.ledger e'
  served : Served (links e) xs ok (s.ledger e) (s'.ledger e)

theorem visited_visit [DecidableEq E] {links : E → Link} {xs : List T} {e : E} {ok : Bool} {s : Wires E T} {w : Ledger T}
    (st : Staged T) (h : Served (links e) xs ok (s.ledger e) w) : Visited links xs e ok s (s.visit e w st) := by
  refine ⟨rfl, ?_, ?_⟩
  · intro e' hne
    exact Function.update_of_ne hne _ _
  · simpa [Wires.visit] using h

theorem sendEdge_performs [DecidableEq E] (links : E → Link) (item : T) :
    Performs (fun s => Spent s.staged) (Visited links [item]) (sendEdge links item) := by
  intro e s hs
  obtain ⟨ok, w, hsend, hserved⟩ := served_send (links e) item (s.ledger e)
  exact ⟨ok, s.visit e w s.staged, by simp only [sendEdge, hsend], hs, visited_visit _ hserved⟩

theorem flushClones_performs [DecidableEq E] (links : E → Link) (batch : List T) :
    Performs (fun s => Spent s.staged) (Visited links batch) (flushClones links batch) := by
  intro e s hs
  obtain ⟨ok, m, w, hflush, hserved⟩ := served_flush (links e) batch (s.ledger e)
  refine ⟨ok, s.visit e w (staged m []), ?_, spent_staged m, visited_visit _ hserved⟩
  have hlive : ([] : Staged T) ++ batch.map .live = staged 0 batch := rfl
  simp only [flushClones, clear_spent hs, hlive, hflush, bind, Except.bind]

theorem flushOwned_performs [DecidableEq E] (links : E → Link) (batch : List T) :
    Performs (fun s => Spent s.staged) (Visited links batch) (flushOwned links batch) := by
  intro e s hs
  obtain ⟨ok, m, w, hflush, hserved⟩ := served_flush (links e) batch (s.ledger e)
  refine ⟨ok, s.visit e w (staged m []), ?_, spent_staged m, visited_visit _ hserved⟩
  have hlive : batch.map .live = staged 0 batch := rfl
  simp only [flushOwned, stageBatch, clear_spent hs, hlive, hflush, bind, Except.bind]

/-- a sweep over distinct edges, edge by edge -/
theorem visits_spec {links : E → Link} {xs : List T} {vs : List (E × Bool)} {s s' : Wires E T}
    (h : Visits (Visited links xs) vs s s') (hnodup : (vs.map Prod.fst).Nodup) :
    s'.visits = s.visits ++ vs.map Prod.fst ∧ (∀ e ∉ vs.map Prod.fst, s'.ledger e = s.ledger e) ∧
      ∀ v ∈ vs, Served (links v.1) xs v.2 (s.ledger v.1) (s'.ledger v.1) := by
  induction h with
  | nil s => simp
  | @cons e ok vs s s1 s' hstep _ ih =>
    rw [List.map_cons, List.nodup_cons] at hnodup
    obtain ⟨hvisits, hothers, hserved⟩ := ih hnodup.2
    refine ⟨?_, ?_, ?_⟩
    · rw [hvisits, hstep.visits, List.append_assoc]
      rfl
    · intro e' he'
      rw [List.map_cons, List.mem_cons, not_or] at he'
      rw [hothers e' he'.2, hstep.others e' he'.1]
    · intro v hv
      rcases List.mem_cons.1 hv with rfl | hlater
      · rw [hothers _ hnodup.1]
        exact hstep.served
      · have hmem : v.1 ∈ vs.map Prod.fst := List.mem_map_of_mem hlater
        have hne : v.1 ≠ e := fun heq => hnodup.1 (heq ▸ hmem)
        rw [← hstep.others v.1 hne]
        exact hserved v hlater

/-- distinct edges and nothing staged -/
structure Sound (b : Broadcast E T) : Prop where
  nodup : b.txs.Nodup
  spent : Spent b.wires.staged

/-- one send of `xs`: every edge visited once and served on its own, and those left that took everything -/
structure Sent (links : E → Link) (xs : List T) (b b' : Broadcast E T) : Prop where
  visits : ∃ vs, vs.Perm b.txs ∧ b'.wires.visits = b.wires.visits ++ vs
  others : ∀ e ∉ b.txs, b'.wires.ledger e = b.wires.ledger e
  left : ∀ e ∈ b'.txs, e ∈ b.txs
  served : ∀ e ∈ b.txs, ∃ ok, Served (links e) xs ok (b.wires.ledger e) (b'.wires.ledger e) ∧ (e ∈ b'.txs ↔ ok = true)

theorem sent_of_visitAll {links : E → Link} {xs : List T} {visit last : E → Wires E T → Except Fault (Bool × Wires E T)}
    (hvisit : Performs (fun s => Spent s.staged) (Visited links xs) visit)
    (hlast : Performs (fun s => Spent s.staged) (Visited links xs) last) {b : Broadcast E T} (hb : Sound b) :
    ∃ b', visitAll visit last b.txs b.wires = .ok (!b'.txs.isEmpty, b'.txs, b'.wires) ∧ Sound b' ∧ Sent links xs b b' := by
  obtain ⟨vs, kept, s', hrun, hspent, hvs, hperm, hkept⟩ := visitAll_spec hvisit hlast b.txs hb.spent
  have hnodup : (vs.map Prod.fst).Nodup := hperm.nodup_iff.2 hb.nodup
  obtain ⟨hvisits, hothers, hserved⟩ := visits_spec hvs hnodup
  have hmem : ∀ e, e ∈ kept ↔ (e, true) ∈ vs := fun e => hkept.mem_iff.trans mem_stayed
  have hstayed : (stayed vs).Nodup := hnodup.sublist (List.filter_sublist.map Prod.fst)
  refine ⟨⟨kept, s'⟩, hrun, ⟨hkept.nodup_iff.2 hstayed, hspent⟩, ⟨_, hperm, hvisits⟩, ?_, ?_, ?_⟩
  · intro e he
    exact hothers e fun h => he (hperm.mem_iff.1 h)
  · intro e he
    exact hperm.mem_iff.1 (List.mem_map_of_mem ((hmem e).1 he))
  · intro e he
    obtain ⟨v, hv, rfl⟩ := List.mem_map.1 (hperm.mem_iff.2 he)
    obtain ⟨e, ok⟩ := v
    refine ⟨ok, hserved _ hv, ?_⟩
    rw [hmem]
    constructor
    · intro ht
      exact (Prod.mk.inj (List.inj_on_of_nodup_map hnodup hv ht rfl)).2
    · rintro rfl
      exact hv

/-- **One send**, single or batch -/
theorem step_sent [DecidableEq E] (links : E → Link) (op : Op T) {b : Broadcast E T} (hb : Sound b) :
    ∃ b', b.step links op = .ok (!b'.txs.isEmpty, b') ∧ Sound b' ∧ Sent links op.items b b' := by
  rcases op with item | items
  · obtain ⟨b', hrun, hsound, hsent⟩ := sent_of_visitAll (sendEdge_performs links item) (sendEdge_performs links item) hb
    refine ⟨b', ?_, hsound, hsent⟩
    simp only [Broadcast.step, Broadcast.send, hrun, bind, Except.bind]
  · obtain ⟨b', hrun, hsound, hsent⟩ := sent_of_visitAll (flushClones_performs links items) (flushOwned_performs links items) hb
    refine ⟨b', ?_, hsound, hsent⟩
    simp only [Broadcast.step, Broadcast.sendBatch, hrun, bind, Except.bind]

/-! ## Runs -/

/-- how the edges of `b` stand after `xs` has been sent from `b` on: those left took everything, those gone a prefix -/
structure Holds (links : E → Link) (xs : List T) (b b' : Broadcast E T) : Prop where
  left : ∀ e ∈ b'.txs, e ∈ b.txs ∧ (b'.wires.ledger e).sent = (b.wires.ledger e).sent ++ xs
  gone : ∀ e ∈ b.txs, e ∉ b'.txs →
    (∃ k, (b'.wires.ledger e).sent = (b.wires.ledger e).sent ++ xs.take k) ∧ ∃ t m, (links e).answer t m = .closed
  others : ∀ e ∉ b.txs, b'.wires.ledger e = b.wires.ledger e
  counted : ∀ e ∈ b.txs, ∀ shut, Shuts (links e) shut →
    (b'.wires.ledger e).sent = (b.wires.ledger e).sent ++ (through shut (b.wires.ledger e).sent.length xs).1 ∧
      (e ∈ b'.txs ↔ (through shut (b.wires.ledger e).sent.length xs).2 = true)

theorem Sent.holds {links : E → Link} {xs : List T} {b b' : Broadcast E T} (h : Sent links xs b b') : Holds links xs b b' := by
  refine ⟨?_, ?_, h.others, ?_⟩
  · intro e he
    obtain ⟨ok, hserved, hok⟩ := h.served e (h.left e he)
    exact ⟨h.left e he, hserved.all (hok.1 he)⟩
  · intro e he hne
    obtain ⟨ok, hserved, hok⟩ := h.served e he
    exact hserved.part (Bool.eq_false_of_not_eq_true fun ht => hne (hok.2 ht))
  · intro e he shut hshut
    obtain ⟨ok, hserved, hok⟩ := h.served e he
    obtain ⟨hsent, rfl⟩ := hserved.counted shut hshut
    exact ⟨hsent, hok⟩

theorem holds_refl (links : E → Link) (b : Broadcast E T) : Holds links [] b b :=
  ⟨fun e he => ⟨he, by simp⟩, fun e he hne => absurd he hne, fun _ _ => rfl, fun e he shut _ => by simp [through, he]⟩

/-- an edge that is gone stays as it is when more is sent -/
theorem Holds.gone_append {links : E → Link} {xs ys : List T} {b b1 b2 : Broadcast E T} (h : Holds links xs b b1) {e : E}
    (he : e ∈ b.txs) (hne : e ∉ b1.txs) (hsame : b2.wires.ledger e = b1.wires.ledger e) :
    (∃ k, (b2.wires.ledger e).sent = (b.wires.ledger e).sent ++ (xs ++ ys).take k) ∧
      ∃ t m, (links e).answer t m = .closed := by
  obtain ⟨⟨k, hk⟩, hclosed⟩ := h.gone e he hne
  refine ⟨⟨min k xs.length, ?_⟩, hclosed⟩
  rw [hsame, hk, List.take_append_of_le_length (min_le_right _ _), ← List.take_take, List.take_length]

theorem Holds.trans {links : E → Link} {xs ys : List T} {b b1 b2 : Broadcast E T} (h : Holds links xs b b1)
    (h' : Holds links ys b1 b2) : Holds links (xs ++ ys) b b2 := by
  refine ⟨?_, ?_, ?_, ?_⟩
  · intro e he
    obtain ⟨he1, hsent2⟩ := h'.left e he
    obtain ⟨heb, hsent1⟩ := h.left e he1
    exact ⟨heb, by rw [hsent2, hsent1, List.append_assoc]⟩
  · intro e he hne
    by_cases he1 : e ∈ b1.txs
    · obtain ⟨⟨k, hk⟩, hclosed⟩ := h'.gone e he1 hne
      refine ⟨⟨xs.length + k, ?_⟩, hclosed⟩
      rw [hk, (h.left e he1).2, List.take_length_add_append, List.append_assoc]
    · exact h.gone_append he he1 (h'.others e he1)
  · intro e he
    have he1 : e ∉ b1.txs := fun h1 => he (h.left e h1).1
    rw [h'.others e he1, h.others e he]
  · intro e he shut hshut
    obtain ⟨hsent1, hiff1⟩ := h.counted e he shut hshut
    by_cases he1 : e ∈ b1.txs
    · obtain ⟨hsent2, hiff2⟩ := h'.counted e he1 shut hshut
      obtain ⟨hall, hfree⟩ := through_true xs _ (hiff1.1 he1)
      have hlen : (b1.wires.ledger e).sent.length = (b.wires.ledger e).sent.length + xs.length := by
        rw [hsent1, hall, List.length_append]
      rw [through_open xs ys _ hfree, ← hlen]
      refine ⟨?_, hiff2⟩
      rw [hsent2, hsent1, hall, List.append_assoc]
    · have hfalse : (through shut (b.wires.ledger e).sent.length xs).2 = false :=
        Bool.eq_false_of_not_eq_true fun ht => he1 (hiff1.2 ht)
      have hnever : e ∉ b2.txs := fun h2 => he1 (h'.left e h2).1
      rw [through_false xs ys _ hfalse, h'.others e he1]
      exact ⟨hsent1, by simp [hnever, hfalse]⟩

/-- with no edge left, nothing more can be sent -/
theorem holds_empty (links : E → Link) (xs : List T) {b : Broadcast E T} (hb : b.txs = []) : Holds links xs b b := by
  refine ⟨?_, ?_, fun _ _ => rfl, ?_⟩
  · intro e he
    rw [hb] at he
    cases he
  · intro e he
    rw [hb] at he
    cases he
  · intro e he
    rw [hb] at he
    cases he

/-- **A run of sends** -/
theorem run_holds [DecidableEq E] (links : E → Link) (ops : List (Op T)) : ∀ {b : Broadcast E T}, Sound b →
    ∃ more b', Broadcast.run links ops b = .ok (more, b') ∧ Sound b' ∧ Holds links (ops.flatMap Op.items) b b' ∧
      (more = false → b'.txs = []) := by
  induction ops with
  | nil => intro b hb; exact ⟨true, b, rfl, hb, holds_refl links b, by simp⟩
  | cons op ops ih =>
    intro b hb
    obtain ⟨b1, hstep, hb1, hsent⟩ := step_sent links op hb
    rw [List.flatMap_cons]
    rcases hmore : b1.txs.isEmpty with _ | _
    · obtain ⟨more, b', hrun, hb', hholds, hlast⟩ := ih hb1
      refine ⟨more, b', ?_, hb', hsent.holds.trans hholds, hlast⟩
      simp only [Broadcast.run, hstep, hmore, Bool.not_false, bind, Except.bind, if_true, hrun]
    · have hnone : b1.txs = [] := List.isEmpty_iff.1 hmore
      refine ⟨false, b1, ?_, hb1, hsent.holds.trans (holds_empty links _ hnone), fun _ => hnone⟩
      simp only [Broadcast.run, hstep, hmore, Bool.not_true, bind, Except.bind, Bool.false_eq_true, if_false]

/-! ## The async twin -/

/-- the same edges served, the slots beside them, and so at every await so far -/
structure Aligned (b : AsyncBroadcast E T) : Prop where
  now : b.slots = b.txs
  awaits : ∀ p ∈ b.polls, p.1 = p.2

/-- one `send_cached` with its removals does to both vectors what the blocking send does to one -/
theorem sendCached_aligned [DecidableEq E] (links : E → Link) (item : T) {i : ℕ} {b : AsyncBroadcast E T} (hb : Aligned b)
    {e : E} (he : b.txs[i]? = some e) : ∃ ok wires, sendEdge links item e b.wires = .ok (ok, wires) ∧
      (ok = true → ∃ b', b.sendCached links item i = .ok (true, b') ∧ Aligned b' ∧ b'.txs = b.txs ∧ b'.wires = wires) ∧
      (ok = false → ∀ txs, swapRemove b.txs i = .ok txs →
        ∃ b', b.sendCached links item i = .ok (false, b') ∧ Aligned b' ∧ b'.txs = txs ∧ b'.wires = wires) := by
  obtain ⟨ok, wires, hsend⟩ : ∃ ok wires, sendEdge links item e b.wires = .ok (ok, wires) := ⟨_, _, rfl⟩
  have hslot : b.slots[i]? = some e := by rw [hb.now, he]
  have hpolls : ∀ p ∈ b.polls ++ [(b.txs, b.slots)], p.1 = p.2 := by
    intro p hp
    rcases List.mem_append.1 hp with hp | hp
    · exact hb.awaits p hp
    · rw [List.mem_singleton.1 hp]
      exact hb.now.symm
  refine ⟨ok, wires, hsend, ?_, ?_⟩
  · rintro rfl
    refine ⟨{ b with wires := wires, polls := b.polls ++ [(b.txs, b.slots)] }, ?_, ⟨hb.now, hpolls⟩, rfl, rfl⟩
    simp only [AsyncBroadcast.sendCached, he, hslot, hsend, bind, Except.bind, if_true]
  · rintro rfl txs htxs
    have hslots : swapRemove b.slots i = .ok txs := by rw [hb.now, htxs]
    refine ⟨⟨txs, txs, wires, b.polls ++ [(b.txs, b.slots)]⟩, ?_, ⟨rfl, hpolls⟩, rfl, rfl⟩
    simp only [AsyncBroadcast.sendCached, he, hslot, hsend, bind, Except.bind, Bool.false_eq_true, if_false, htxs, hslots]

theorem sendLoop_aligned [DecidableEq E] (links : E → Link) (item : T) (fuel : ℕ) : ∀ (i : ℕ) {b : AsyncBroadcast E T}
    {txs : List E} {wires : Wires E T}, Aligned b → sweep (sendEdge links item) fuel i b.txs b.wires = .ok (txs, wires) →
    ∃ b', AsyncBroadcast.sendLoop links item fuel i b = .ok b' ∧ Aligned b' ∧ b'.txs = txs ∧ b'.wires = wires := by
  induction fuel with
  | zero => intro i b txs wires _ h; cases h
  | succ fuel ih =>
    intro i b txs wires hb h
    by_cases hlt : i + 1 < b.txs.length
    · obtain ⟨e, he⟩ : ∃ e, b.txs[i]? = some e := ⟨_, List.getElem?_eq_getElem (Nat.lt_of_succ_lt hlt)⟩
      obtain ⟨ok, wires1, hsend, hkeep, hout⟩ := sendCached_aligned links item hb he
      simp only [sweep, hlt, if_true, he, hsend, bind, Except.bind] at h
      rcases ok with _ | _
      · simp only [Bool.false_eq_true, if_false] at h
        rcases hrm : swapRemove b.txs i with err | l
        · rw [hrm] at h
          cases h
        · rw [hrm] at h
          obtain ⟨b1, hrun, hb1, htxs1, hwires1⟩ := hout rfl l hrm
          obtain ⟨b', hrest, hres⟩ := ih i (b := b1) hb1 (by rw [htxs1, hwires1]; exact h)
          refine ⟨b', ?_, hres⟩
          simp only [AsyncBroadcast.sendLoop, hlt, if_true, hrun, bind, Except.bind, Bool.false_eq_true, if_false, hrest]
      · simp only [if_true] at h
        obtain ⟨b1, hrun, hb1, htxs1, hwires1⟩ := hkeep rfl
        obtain ⟨b', hrest, hres⟩ := ih (i + 1) (b := b1) hb1 (by rw [htxs1, hwires1]; exact h)
        refine ⟨b', ?_, hres⟩
        simp only [AsyncBroadcast.sendLoop, hlt, if_true, hrun, bind, Except.bind, hrest]
    · simp only [sweep, hlt, if_false, Except.ok.injEq, Prod.mk.injEq] at h
      refine ⟨b, ?_, hb, h.1, h.2⟩
      simp only [AsyncBroadcast.sendLoop, hlt, if_false]

theorem asyncSend_aligned [DecidableEq E] (links : E → Link) (item : T) {b : AsyncBroadcast E T} (hb : Aligned b)
    {more : Bool} {b1 : Broadcast E T} (h : Broadcast.send links item ⟨b.txs, b.wires⟩ = .ok (more, b1)) :
    ∃ b', b.send links item = .ok (more, b') ∧ Aligned b' ∧ b'.txs = b1.txs ∧ b'.wires = b1.wires := by
  simp only [Broadcast.send, visitAll, bind, Except.bind] at h
  rcases hsweep : sweep (sendEdge links item) (b.txs.length + 1) 0 b.txs b.wires with err | r
  · rw [hsweep] at h
    cases h
  obtain ⟨txs, wires⟩ := r
  obtain ⟨b2, hloop, hb2, rfl, rfl⟩ := sendLoop_aligned links item (b.txs.length + 1) 0 hb hsweep
  rw [hsweep] at h
  simp only [visitLast] at h
  rcases hempty : b2.txs.isEmpty with _ | _
  · simp only [hempty, Bool.false_eq_true, if_false] at h
    have hpos : 0 < b2.txs.length := by
      rw [List.length_pos_iff]
      exact fun hnil => by rw [hnil] at hempty; cases hempty
    obtain ⟨e, he⟩ : ∃ e, b2.txs[b2.txs.length - 1]? = some e := ⟨_, List.getElem?_eq_getElem (Nat.sub_lt hpos Nat.one_pos)⟩
    obtain ⟨ok, wires1, hsend, hkeep, hout⟩ := sendCached_aligned links item hb2 he
    simp only [he, hsend, bind, Except.bind] at h
    rcases ok with _ | _
    · simp only [Bool.false_eq_true, if_false] at h
      rcases hrm : swapRemove b2.txs (b2.txs.length - 1) with err | l
      · rw [hrm] at h
        cases h
      · rw [hrm] at h
        cases h
        obtain ⟨b', hrun, hb', htxs, hwires⟩ := hout rfl l hrm
        refine ⟨b', ?_, hb', htxs, hwires⟩
        simp only [AsyncBroadcast.send, hloop, hempty, Bool.false_eq_true, if_false, hrun, htxs, bind, Except.bind]
    · simp only [if_true] at h
      cases h
      obtain ⟨b', hrun, hb', htxs, hwires⟩ := hkeep rfl
      refine ⟨b', ?_, hb', htxs, hwires⟩
      simp only [AsyncBroadcast.send, hloop, hempty, Bool.false_eq_true, if_false, hrun, htxs, bind, Except.bind]
  · simp only [hempty, if_true] at h
    cases h
    refine ⟨b2, ?_, hb2, rfl, rfl⟩
    simp only [AsyncBroadcast.send, hloop, hempty, if_true, bind, Except.bind]

/-- the async sends of a task follow the blocking ones -/
theorem asyncRun_aligned [DecidableEq E] (links : E → Link) (items : List T) : ∀ {b : AsyncBroadcast E T} {more : Bool}
    {b1 : Broadcast E T}, Aligned b → Broadcast.run links (items.map .one) ⟨b.txs, b.wires⟩ = .ok (more, b1) →
    ∃ b', b.run links items = .ok (more, b') ∧ Aligned b' ∧ b'.txs = b1.txs ∧ b'.wires = b1.wires := by
  induction items with
  | nil =>
    intro b more b1 hb h
    cases h
    exact ⟨b, rfl, hb, rfl, rfl⟩
  | cons item items ih =>
    intro b more b1 hb h
    simp only [List.map_cons, Broadcast.run, Broadcast.step, bind, Except.bind] at h
    rcases hsend : Broadcast.send links item ⟨b.txs, b.wires⟩ with err | r
    · rw [hsend] at h
      cases h
    obtain ⟨more1, b2⟩ := r
    obtain ⟨b3, hrun, hb3, htxs, hwires⟩ := asyncSend_aligned links item hb hsend
    rw [hsend] at h
    rcases more1 with _ | _
    · cases h
      exact ⟨b3, by simp [AsyncBroadcast.run, hrun, bind, Except.bind], hb3, htxs, hwires⟩
    · simp only [if_true] at h
      obtain ⟨b', hrest, hres⟩ := ih (b := b3) hb3 (by rw [htxs, hwires]; exact h)
      exact ⟨b', by simp [AsyncBroadcast.run, hrun, hrest, bind, Except.bind], hres⟩

/-! ## Results -/

theorem sound_new {edges : List E} (h : edges.Nodup) : Sound (Broadcast.new edges : Broadcast E T) := ⟨h, spent_nil⟩

/-- **Broadcast delivery.** Over any distinct edges, whatever each edge's channel answers, and for any run of sends and batch
sends, the run ends and:
* an edge still served has exactly the items, once each and in order; one that is not has a prefix of them and its channel has
  reported closed, so that an edge that stays open is still served;
* every further send visits each edge served at that time exactly once, and returns false exactly when no edge is left;
* if every edge's closing depends on the number of items it has accepted only, two runs of the same items, batched in any way or
  not at all, leave the same edges, each edge with the same items;
* the async broadcast ends in the same edges and items, and its senders and slots are aligned at the end and at every await. -/
theorem broadcast_delivers {E T : Type} [DecidableEq E] (links : E → Link) (edges : List E) (hdistinct : edges.Nodup) :
    (∀ ops : List (Op T), ∃ more b, Broadcast.run links ops (Broadcast.new edges) = .ok (more, b) ∧
      (∀ e ∈ b.txs, e ∈ edges ∧ (b.wires.ledger e).sent = ops.flatMap Op.items) ∧
      (∀ e ∈ edges, e ∉ b.txs → (b.wires.ledger e).sent <+: ops.flatMap Op.items ∧ ∃ t m, (links e).answer t m = .closed) ∧
      (∀ e ∈ edges, (∀ t m, (links e).answer t m ≠ .closed) → e ∈ b.txs) ∧
      ∀ op, ∃ more' b', b.step links op = .ok (more', b') ∧ (more' = false ↔ b'.txs = []) ∧
        ∃ visited, visited.Perm b.txs ∧ b'.wires.visits = b.wires.visits ++ visited) ∧
    (∀ (links' : E → Link) (shut : E → ℕ → Bool), (∀ e, Shuts (links e) (shut e) ∧ Shuts (links' e) (shut e)) →
      ∀ ops ops' : List (Op T), ops.flatMap Op.items = ops'.flatMap Op.items →
        ∃ more b more' b', Broadcast.run links ops (Broadcast.new edges) = .ok (more, b) ∧
          Broadcast.run links' ops' (Broadcast.new edges) = .ok (more', b') ∧
          ∀ e, (b.wires.ledger e).sent = (b'.wires.ledger e).sent ∧ (e ∈ b.txs ↔ e ∈ b'.txs)) ∧
    ∀ items : List T, ∃ more b, AsyncBroadcast.run links items (AsyncBroadcast.new edges) = .ok (more, b) ∧
      b.slots = b.txs ∧ (∀ p ∈ b.polls, p.1 = p.2) ∧
      Broadcast.run links (items.map .one) (Broadcast.new edges) = .ok (more, ⟨b.txs, b.wires⟩) := by
  have hnew := sound_new (T := T) hdistinct
  refine ⟨?_, ?_, ?_⟩
  · intro ops
    obtain ⟨more, b, hrun, hb, hholds, -⟩ := run_holds links ops hnew
    refine ⟨more, b, hrun, hholds.left, ?_, ?_, ?_⟩
    · intro e he hne
      obtain ⟨⟨k, hk⟩, hclosed⟩ := hholds.gone e he hne
      refine ⟨?_, hclosed⟩
      rw [hk]
      exact List.take_prefix k _
    · intro e he hopen
      by_contra hne
      obtain ⟨-, t, m, hclosed⟩ := hholds.gone e he hne
      exact hopen t m hclosed
    · intro op
      obtain ⟨b', hstep, -, hsent⟩ := step_sent links op hb
      exact ⟨_, b', hstep, by simp, hsent.visits⟩
  · intro links' shut hshut ops ops' hsame
    obtain ⟨more, b, hrun, -, hholds, -⟩ := run_holds links ops hnew
    obtain ⟨more', b', hrun', -, hholds', -⟩ := run_holds links' ops' hnew
    refine ⟨more, b, more', b', hrun, hrun', ?_⟩
    intro e
    by_cases he : e ∈ edges
    · obtain ⟨hsent, hiff⟩ := hholds.counted e he (shut e) (hshut e).1
      obtain ⟨hsent', hiff'⟩ := hholds'.counted e he (shut e) (hshut e).2
      rw [hsame] at hsent hiff
      exact ⟨hsent.trans hsent'.symm, hiff.trans hiff'.symm⟩
    · refine ⟨by rw [hholds.others e he, hholds'.others e he], ?_⟩
      exact iff_of_false (fun h => he (hholds.left e h).1) fun h => he (hholds'.left e h).1
  · intro items
    obtain ⟨more, b1, hrun, -, -, -⟩ := run_holds links (items.map .one) hnew
    obtain ⟨b, hasync, haligned, htxs, hwires⟩ := asyncRun_aligned links items (b := AsyncBroadcast.new edges)
      ⟨rfl, by simp [AsyncBroadcast.new]⟩ hrun
    refine ⟨more, b, hasync, haligned.now, haligned.awaits, ?_⟩
    rw [hrun, htxs, hwires]

/-- edge 1 closes after two items, the others are open and have room for one item at a time -/
def fading (e : ℕ) : Link where
  answer t m := if e = 1 ∧ 2 ≤ m then .closed else if t % 3 = 2 then .full else .accepts
  free _ m := if e = 1 then 2 - m else 1
  cancelled _ := false

theorem fading_shuts (e : ℕ) : Shuts (fading e) fun m => decide (e = 1 ∧ 2 ≤ m) := by
  constructor
  · intro t m
    simp only [fading, decide_eq_true_eq]
    split_ifs with h h'
    · simp [h]
    · simp [h]
    · simp [h]
  · intro t m j hj
    simp only [fading] at hj
    rw [decide_eq_false_iff_not]
    rintro ⟨rfl, hm⟩
    simp only [if_true] at hj
    omega

/-- three items to three edges, as a batch: edge 2 takes the place of edge 1, which has closed after two items. The same items
one by one leave every edge with the same. -/
theorem broadcast_delivers_fading :
    ((Broadcast.run fading [.batch [10, 11, 12]] (Broadcast.new [0, 1, 2])).toOption.map fun r =>
        (r.1, r.2.txs, r.2.wires.visits, [0, 1, 2].map fun e => (r.2.wires.ledger e).sent)) =
      some (true, [0, 2], [0, 1, 2], [[10, 11, 12], [10, 11], [10, 11, 12]]) ∧
    ∃ more b more' b', Broadcast.run fading [.batch [10, 11, 12]] (Broadcast.new [0, 1, 2]) = .ok (more, b) ∧
      Broadcast.run fading [.one 10, .one 11, .one 12] (Broadcast.new [0, 1, 2]) = .ok (more', b') ∧
      ∀ e, (b.wires.ledger e).sent = (b'.wires.ledger e).sent ∧ (e ∈ b.txs ↔ e ∈ b'.txs) := by
  refine ⟨by decide, ?_⟩
  exact (broadcast_delivers fading [0, 1, 2] (by decide)).2.1 fading (fun e m => decide (e = 1 ∧ 2 ≤ m))
    (fun e => ⟨fading_shuts e, fading_shuts e⟩) [.batch [10, 11, 12]] [.one 10, .one 11, .one 12] rfl

end YouPipe.FanOut
