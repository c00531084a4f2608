/-
`StreamPipe::run` and `run_checked` (`builder/typed/stream.rs`, `sync/cancel.rs`) for every chain, in every mode.

A run takes the fused pass-through when the chain is made of unpinned sync stages only and neither a token nor a worker budget
is set; an empty input returns at once; everything else is a streaming run (`Stream.Run`) over the topology of the chain, read
by the drain loop over one ring or over shards. The collector appends in completion order, or re-sequences by seq and flushes at
the end; a grouped chain flattens its groups. A collector that panics does not return: its fault is the sink of the model, and no
`Ends` has it. `run_checked` reads the token once, after the drain.

Results: `streaming_sequential` (what a run returns that was not cancelled), `streaming_progress` (no reachable state is stuck,
everybody can get out), `outcome_sound` (what the classification of a run means).
-/
import Mathlib.Tactic
import YouPipe.Fused.Collect
import YouPipe.State.Drain
import YouPipe.Stream.Chain

namespace YouPipe.Stream

open YouPipe.Reorder YouPipe.Ordered YouPipe.Word

variable {I P X Y : Type} {m : Mode}

/-! ## Collectors -/

/-- the drain's `ordered` flag -/
def Mode.isOrdered : Mode → Bool
  | .items ordered _ => ordered
  | .grouped => true

/-- the items of a message: one, or those of a group -/
def emit : (m : Mode) → payload m X → List X
  | .items _ _, x => [x]
  | .grouped, group => group

/-- `VecCollector` and `FlatVecCollector`: append, or re-sequence through the reorder buffer and flush it at the end -/
def collector (ordered : Bool) (emit : P → List X) : Drain.Sink (ReorderBuffer P × List X) (Msg P) where
  insert st o :=
    if ordered then do
      let (b, out) ← st.1.insertInto o.1 o.2
      .ok (b, st.2 ++ out.flatMap emit)
    else .ok (st.1, st.2 ++ emit o.2)
  eof st :=
    if ordered then do
      let (b, rest) ← st.1.flushRemaining
      .ok (b, st.2 ++ rest.flatMap emit)
    else .ok st

/-- the drain loop over one ring, or over the shards of a sharded terminal -/
def drainOver {T : Type} : (n : ℕ+) → (isSharded : Bool) → (batchCap : ℕ) → Receiver n T
  | ⟨1, _⟩, false, batchCap => single batchCap
  | n, _, batchCap => sharded n batchCap

/-! ## Runs -/

/-- a pipe: its chain, what a run resolves and reads, whether a token is attached and a worker budget pinned, the pinned reorder
window, the size of a slot of the reorder buffer, and the pool of the fused core -/
structure StreamPipe (I : Type) (m : Mode) (X : Type) where
  chain : Chain I m X
  ctx : Ctx
  cancel : Bool
  computeWorkersPinned : Bool
  reorderWindow : Option ℕ+
  slotSize : SlotSize
  exec : Fused.Exec

/-- the composed stages over the whole input, sequentially -/
def StreamPipe.sequential (p : StreamPipe I m X) (items : List I) : List X := items.flatMap p.chain.outs

/-- the window `drain_terminal` resolves -/
def StreamPipe.window (p : StreamPipe I m X) (n : ℕ) : Drain.Sizing :=
  match p.reorderWindow with
  | some w => .fixed n w
  | none => .auto n p.ctx.inFlight

/-- the streaming run of `n` items -/
def StreamPipe.setup (p : StreamPipe I m X) (n : ℕ) : Setup I (payload m X) (ReorderBuffer (payload m X) × List X) :=
  let rx := p.chain.route p.ctx
  { net := rx.net
    recv := drainOver ⟨rx.net.shards, shards_pos rx.net⟩ rx.isSharded (if rx.isAsync then 0 else p.ctx.batchRecvCap)
    sink := collector m.isOrdered (emit m)
    empty := ((p.window n).window.buffer p.slotSize, []) }

/-- `fuse_exec`: the composed op of the pass-through, for unpinned sync stages only -/
def Chain.fuseExec : {m : Mode} → {X : Type} → Chain I m X → (X → Y) → Option (I → Y)
  | _, _, .start, downstream => some downstream
  | _, _, .ordered prev, downstream => prev.fuseExec downstream
  | _, _, .stage prev opts f, downstream =>
    if opts.workers.isSome || opts.buffer.isSome then none else prev.fuseExec fun x => downstream (f x)
  | _, _, _, _ => none

/-- `out` is the result of some completed run of `fused_pass_collect` -/
inductive FusedPass (ex : Fused.Exec) (op : I → X) (items : List I) : List X → Prop where
  | serial (hp : Fused.terminalPlan ex.knobs items.length ex.workload ex.numThreads = .serial) :
      FusedPass ex op items (items.map op)
  | index {plan : Fused.SplitPlan} (hp : Fused.terminalPlan ex.knobs items.length ex.workload ex.numThreads = .parallel plan)
      {n : ℕ} {tr : List (I × ℕ)} {q : ForkJoin.Pool ℕ (I × ℕ) Unit} {out : List X}
      (hr : ForkJoin.Runs Fused.indexItem (fun _ _ => ()) n (Fused.indexPool ex items plan) tr q) (hq : q.running = [])
      (ho : Fused.intoVec (tr.foldl (Fused.indexWrite ⟨.syncMap (.identity I) op, rfl⟩) Fused.Mem.fresh) items.length = some out) :
      FusedPass ex op items out

/-- the op of the fused pass-through, when the run takes it; a grouped run never asks -/
def StreamPipe.fused (p : StreamPipe I m X) : Option (I → X) :=
  if p.cancel || p.computeWorkersPinned || decide (m = .grouped) then none else p.chain.fuseExec id

/-- `try_run` returned `out`, and `fired` is what a later read of the token gives -/
inductive StreamPipe.Ends (p : StreamPipe I m X) (items : List I) : List X → Bool → Prop where
  | fused {op : I → X} {out : List X} (hf : p.fused = some op) (hr : FusedPass p.exec op items out) : Ends p items out false
  | empty (hf : p.fused = none) (hi : items = []) {fired : Bool} (ht : fired = true → p.cancel = true) : Ends p items [] fired
  | drained (hf : p.fused = none) (hi : items ≠ []) {s : (p.setup items.length).St}
      (hs : (p.setup items.length).Reachable items s) (hr : s.returned = true) (ht : s.cancelled = true → p.cancel = true)
      {b : ReorderBuffer (payload m X)} {out : List X} (ho : s.sink = .ok (b, out)) : Ends p items out s.cancelled

/-- `RunOutcome` -/
inductive RunOutcome (Out : Type) where
  | completed (out : Out)
  | cancelled (part : Out) (emitted : ℕ)

def RunOutcome.classify {Out : Type} (out : Out) (emitted : ℕ) (fired : Bool) : RunOutcome Out :=
  if fired then .cancelled out emitted else .completed out

/-- `try_run_checked` -/
def StreamPipe.Checked (p : StreamPipe I m X) (items : List I) (r : RunOutcome (List X)) : Prop :=
  ∃ out fired, p.Ends items out fired ∧ r = .classify out out.length fired

/-! ## The collectors -/

theorem collector_append (e : P → List X) (l : List (Msg P)) (b : ReorderBuffer P) (out : List X) :
    l.foldlM (collector false e).insert (b, out) = .ok (b, out ++ l.flatMap fun o => e o.2) := by
  induction l generalizing out with
  | nil => simp [pure, Except.pure]
  | cons o l ih =>
    rw [List.foldlM_cons]
    show l.foldlM (collector false e).insert (b, out ++ e o.2) = _
    rw [ih, List.flatMap_cons, List.append_assoc]

/-- flattening what an ordered drain hands over -/
def flatten (e : P → List X) (st : ReorderBuffer P × List P) : ReorderBuffer P × List X := (st.1, st.2.flatMap e)

theorem collector_insert (e : P → List X) (st : ReorderBuffer P × List P) (o : Msg P) :
    (collector true e).insert (flatten e st) o = (Drain.ordered.insert st o).map (flatten e) := by
  show (do let (b, out) ← st.1.insertInto o.1 o.2; .ok (b, st.2.flatMap e ++ out.flatMap e)) =
    (do let (b, out) ← st.1.insertInto o.1 o.2; .ok (b, st.2 ++ out) : Except Fault _).map (flatten e)
  cases st.1.insertInto o.1 o.2 with
  | error x => rfl
  | ok y => simp [flatten, bind, Except.bind, Except.map]

theorem collector_eof (e : P → List X) (st : ReorderBuffer P × List P) :
    (collector true e).eof (flatten e st) = (Drain.ordered.eof st).map (flatten e) := by
  show (do let (b, rest) ← st.1.flushRemaining; .ok (b, st.2.flatMap e ++ rest.flatMap e)) =
    (do let (b, rest) ← st.1.flushRemaining; .ok (b, st.2 ++ rest) : Except Fault _).map (flatten e)
  cases st.1.flushRemaining with
  | error x => rfl
  | ok y => simp [flatten, bind, Except.bind, Except.map]

theorem collector_fold (e : P → List X) (l : List (Msg P)) (st : ReorderBuffer P × List P) :
    l.foldlM (collector true e).insert (flatten e st) = (l.foldlM Drain.ordered.insert st).map (flatten e) := by
  induction l generalizing st with
  | nil => rfl
  | cons o l ih =>
    rw [List.foldlM_cons, List.foldlM_cons, collector_insert]
    cases Drain.ordered.insert st o with
    | error x => rfl
    | ok st' => exact ih st'

/-- an ordered collector is an ordered drain, flattened -/
theorem collector_ordered (e : P → List X) (l : List (Msg P)) (b : ReorderBuffer P) :
    (l.foldlM (collector true e).insert (b, [])).bind (collector true e).eof =
      ((l.foldlM Drain.ordered.insert (b, [])).bind Drain.ordered.eof).map (flatten e) := by
  have h := collector_fold e l (b, [])
  rw [show flatten e (b, []) = (b, []) from rfl] at h
  rw [h]
  cases l.foldlM Drain.ordered.insert (b, []) with
  | error x => rfl
  | ok st => exact collector_eof e st

/-! ## The messages of a run -/

/-- the messages of all inputs, in input order -/
def StreamPipe.outputs (p : StreamPipe I m X) (items : List I) : List (Msg (payload m X)) :=
  (tagged items).flatMap (fan fun x => messages m (p.chain.outs x))

theorem total_eq (p : StreamPipe I m X) (n : ℕ) (items : List I) : (p.setup n).net.total items = p.outputs items := by
  have houts : (p.setup n).net.outs = fun x => messages m (p.chain.outs x) := by
    funext x
    exact spawn_outs ..
  rw [Net.total, houts]
  rfl

theorem emit_messages (m : Mode) (l : List X) : (messages m l).flatMap (emit m) = l := by
  cases m with
  | items o e => exact List.flatMap_singleton' l
  | grouped => exact List.append_nil l

theorem tagged_snd (items : List I) : (tagged items).map Prod.snd = items := by
  rw [tagged, List.map_map]
  exact List.zipIdx_map_fst 0 items

theorem tagged_fst (items : List I) : (tagged items).map Prod.fst = List.range items.length := by
  rw [tagged, List.map_map, List.range_eq_range']
  exact List.zipIdx_map_snd 0 items

/-- flattened, the messages are the sequential result -/
theorem outputs_flatten (p : StreamPipe I m X) (items : List I) :
    ((p.outputs items).flatMap fun o => emit m o.2) = p.sequential items := by
  have hone : ∀ o : Msg I, ((fan (fun x => messages m (p.chain.outs x)) o).flatMap fun o => emit m o.2) = p.chain.outs o.2 := by
    intro o
    rw [fan, List.flatMap_map]
    exact emit_messages m (p.chain.outs o.2)
  rw [StreamPipe.outputs, List.flatMap_assoc, StreamPipe.sequential]
  conv_rhs => rw [← tagged_snd items, List.flatMap_map]
  exact List.flatMap_congr fun o _ => hone o

/-- an ordered chain has no `expand` before it -/
theorem ordered_not_expanded (c : Chain I m X) {e : Bool} (hm : m = .items true e) : e = false := by
  induction c generalizing e with
  | start => cases hm
  | ordered prev ih => exact (Mode.items.inj hm).2.symm
  | stage prev opts f ih => exact ih hm
  | async prev f ih => exact ih hm
  | fence prev mode ih => exact ih hm
  | expand prev opts f ih => cases hm
  | orderedExpand prev opts f ih => cases hm
  | groupedStage prev opts f ih => cases hm
  | groupedExpand prev opts f ih => cases hm
  | groupedAsync prev f ih => cases hm

/-- in input order every input is one message -/
theorem messages_single (c : Chain I m X) (hm : m.isOrdered = true) (x : I) : ∃ q, messages m (c.outs x) = [q] := by
  cases m with
  | grouped => exact ⟨c.outs x, rfl⟩
  | items o e =>
    obtain rfl : o = true := hm
    obtain rfl := ordered_not_expanded c rfl
    exact outs_single c rfl x

theorem outputs_seqs (p : StreamPipe I m X) (hm : m.isOrdered = true) (items : List I) :
    (p.outputs items).map Prod.fst = List.range items.length := by
  have hone : ∀ o : Msg I, (fan (fun x => messages m (p.chain.outs x)) o).map Prod.fst = [o.1] := by
    intro o
    obtain ⟨q, hq⟩ := messages_single p.chain hm o.2
    simp only [fan, hq, List.map_cons, List.map_nil]
  rw [StreamPipe.outputs, List.map_flatMap, List.flatMap_congr fun o _ => hone o, ← tagged_fst items, List.map_eq_flatMap]

/-! ## What the collector ends with -/

section Ended

variable {p : StreamPipe I m X} {items : List I} {s : (p.setup items.length).St}

theorem sink_unordered (hs : (p.setup items.length).Reachable items s) (hr : s.returned = true) (hm : m.isOrdered = false) :
    s.sink = .ok ((p.window items.length).window.buffer p.slotSize, s.taken.flatMap fun o => emit m o.2) := by
  rw [hs.inv.closed hr]
  show (s.taken.foldlM (collector m.isOrdered (emit m)).insert _).bind (collector m.isOrdered (emit m)).eof = _
  rw [hm, show (p.setup items.length).empty = ((p.window items.length).window.buffer p.slotSize, []) from rfl,
    collector_append]
  rfl

theorem sink_ordered (hs : (p.setup items.length).Reachable items s) (hr : s.returned = true) (hm : m.isOrdered = true) :
    s.sink = ((s.taken.foldlM Drain.ordered.insert ((p.window items.length).window.buffer p.slotSize, [])).bind
      Drain.ordered.eof).map (flatten (emit m)) := by
  rw [hs.inv.closed hr]
  show (s.taken.foldlM (collector m.isOrdered (emit m)).insert _).bind (collector m.isOrdered (emit m)).eof = _
  rw [hm]
  exact collector_ordered (emit m) s.taken _

theorem taken_perm (hs : (p.setup items.length).Reachable items s) (hr : s.returned = true) (hc : s.cancelled = false) :
    s.taken.Perm (p.outputs items) := by
  have h := hs.inv.complete hr hc
  rw [total_eq] at h
  exact Multiset.coe_eq_coe.1 h

theorem taken_subperm (hs : (p.setup items.length).Reachable items s) : s.taken.Subperm (p.outputs items) := by
  have h := hs.inv.taken_le
  rw [total_eq] at h
  exact Multiset.coe_le.1 h

/-- an uncancelled unordered run has collected everything -/
theorem ended_unordered (hs : (p.setup items.length).Reachable items s) (hr : s.returned = true) (hc : s.cancelled = false)
    (hm : m.isOrdered = false) : ∃ b out, s.sink = .ok (b, out) ∧ out.Perm (p.sequential items) := by
  refine ⟨_, _, sink_unordered hs hr hm, ?_⟩
  rw [← outputs_flatten p items]
  exact (taken_perm hs hr hc).flatMap_right _

/-- the slots that the seqs of all inputs may need are more than a `Vec` can hold -/
def StreamPipe.Oversized (p : StreamPipe I m X) (n : ℕ) : Prop :=
  m.isOrdered = true ∧ isizeMax < nextPowerOfTwo (max n 1) * p.slotSize.bytes

/-- an uncancelled run in input order has collected everything, in order, when its window is the automatic one -/
theorem ended_ordered (hs : (p.setup items.length).Reachable items s) (hr : s.returned = true) (hc : s.cancelled = false)
    (hm : m.isOrdered = true) (hw : p.reorderWindow = none) (hn : items.length ≤ 2 ^ 63) :
    (∃ b, s.sink = .ok (b, p.sequential items)) ∨ (p.Oversized items.length ∧ s.sink = .error .capacityOverflow) := by
  have hperm := taken_perm hs hr hc
  have hseqs : (s.taken.map Prod.fst).Perm (List.range items.length) := by
    rw [← outputs_seqs p hm items]
    exact hperm.map Prod.fst
  rw [sink_ordered hs hr hm]
  simp only [StreamPipe.window, hw, Drain.Sizing.window]
  rcases Drain.ordered_auto_end p.slotSize hn p.ctx.inFlight hseqs with ⟨b, em, hend, hem, hfst⟩ | ⟨hover, hend⟩
  · -- the emitted messages are the outputs: the same ones, both in increasing seq
    have hsorted : ∀ l : List (Msg (payload m X)), l.map Prod.fst = List.range items.length →
        l.Pairwise fun a b => a.1 < b.1 := by
      intro l hl
      have h := @List.pairwise_lt_range items.length
      rw [← hl, List.pairwise_map] at h
      exact h
    have heq : em = p.outputs items := (hem.trans hperm).eq_of_pairwise (fun a b _ _ hab hba => absurd hab (Nat.lt_asymm hba))
      (hsorted em hfst) (hsorted _ (outputs_seqs p hm items))
    refine .inl ⟨b, ?_⟩
    rw [hend, heq]
    show Except.ok (b, ((p.outputs items).map Prod.snd).flatMap (emit m)) = _
    rw [List.flatMap_map, outputs_flatten]
  · refine .inr ⟨⟨hm, hover⟩, ?_⟩
    rw [hend]
    rfl

/-- no window starts with more slots than there are seqs -/
theorem window_initial_le (p : StreamPipe I m X) {n : ℕ} (hn : n ≤ 2 ^ 63) :
    (p.window n).window.initial ≤ nextPowerOfTwo (max n 1) := by
  unfold StreamPipe.window
  split
  case h_2 => exact min_le_left _ _
  case h_1 w hw =>
    obtain ⟨k, hk63, hk, -⟩ := nextPowerOfTwo_spec (n := max n 1) (by omega)
    have hle : min (w : ℕ) (2 ^ k) ≤ 2 ^ 63 := (min_le_right _ _).trans (Nat.pow_le_pow_right Nat.two_pos hk63)
    show nextPowerOfTwo (min (w : ℕ) (nextPowerOfTwo (max n 1))) ≤ _
    rw [hk, nextPowerOfTwo_eq_clog hle]
    exact Nat.pow_le_pow_right Nat.two_pos (Nat.clog_le_of_le_pow (min_le_right _ _))

/-- `out` consists of the items of some of the messages, none of them twice, in increasing seq in an ordered run -/
def StreamPipe.Emits (p : StreamPipe I m X) (items : List I) (out : List X) : Prop :=
  ∃ em : List (Msg (payload m X)), em.Subperm (p.outputs items) ∧ out = em.flatMap (fun o => emit m o.2) ∧
    (m.isOrdered = true → (em.map Prod.fst).Pairwise (· < ·))

/-- every run that returns hands over some of the messages, none of them twice -/
theorem ended_emits (hs : (p.setup items.length).Reachable items s) (hr : s.returned = true)
    (hn : m.isOrdered = true → items.length ≤ 2 ^ 63) :
    (∃ b out, s.sink = .ok (b, out) ∧ p.Emits items out) ∨
      (p.Oversized items.length ∧ s.sink = .error .capacityOverflow) := by
  have hsub := taken_subperm hs
  cases hm : m.isOrdered with
  | false =>
    refine .inl ⟨_, _, sink_unordered hs hr hm, s.taken, hsub, rfl, fun ho => ?_⟩
    rw [hm] at ho
    cases ho
  | true =>
    obtain ⟨l, hl, hsl⟩ := id hsub
    have hseqs := hsl.map Prod.fst
    rw [outputs_seqs p hm items] at hseqs
    have hnd : (s.taken.map Prod.fst).Nodup := (hl.map Prod.fst).nodup_iff.1 (hseqs.nodup List.nodup_range)
    have hlt : ∀ o ∈ s.taken, o.1 < items.length := fun o ho =>
      List.mem_range.1 (hseqs.subset (List.mem_map_of_mem (hl.mem_iff.2 ho)))
    have hsmall : ∀ o ∈ s.taken, o.1 + 1 < maxVal := by
      intro o ho
      have hbound := hlt o ho
      have hbig : 2 ^ 63 < maxVal := by decide
      have := hn hm
      omega
    rw [sink_ordered hs hr hm]
    rcases Drain.ordered_end p.slotSize (p.window items.length) hnd hsmall with ⟨b, em, ev, hend, hpw, hperm, -⟩ | ⟨hend, hout⟩
    · refine .inl ⟨b, em.flatMap fun o => emit m o.2, ?_, em, ?_, rfl, fun _ => hpw⟩
      · rw [hend]
        show Except.ok (b, (em.map Prod.snd).flatMap (emit m)) = _
        rw [List.flatMap_map]
      · exact ((List.sublist_append_left em ev).subperm.trans hperm.symm.subperm).trans hsub
    · refine .inr ⟨⟨hm, Nat.lt_of_not_le fun hfit => ?_⟩, by rw [hend]; rfl⟩
      obtain ⟨k, -, hk, hnk⟩ := nextPowerOfTwo_spec (n := max items.length 1) (by have := hn hm; omega)
      have hinit := window_initial_le p (hn hm)
      rw [hk] at hfit hinit
      refine hout k hinit hfit fun i _ o ho st _ => ?_
      have hbound := hlt o (List.mem_of_getElem? ho)
      omega

end Ended

/-- what is emitted is a sub-multiset of the sequential result -/
theorem StreamPipe.Emits.subperm {p : StreamPipe I m X} {items : List I} {out : List X} (h : p.Emits items out) :
    out.Subperm (p.sequential items) := by
  obtain ⟨em, ⟨l, hl, hsub⟩, rfl, -⟩ := h
  rw [← outputs_flatten p items]
  exact ⟨_, hl.flatMap_right _, hsub.flatMap _⟩

/-- the whole sequential result is emitted -/
theorem emits_sequential (p : StreamPipe I m X) (items : List I) : p.Emits items (p.sequential items) := by
  refine ⟨p.outputs items, List.Subperm.refl _, (outputs_flatten p items).symm, fun hm => ?_⟩
  rw [outputs_seqs p hm]
  exact List.pairwise_lt_range

/-! ## The fused pass-through -/

/-- the composed op is the chain: every input has one output -/
theorem fuseExec_outs (c : Chain I m X) {downstream : X → Y} {op : I → Y} (h : c.fuseExec downstream = some op) (x : I) :
    (c.outs x).map downstream = [op x] := by
  induction c with
  | start =>
    cases h
    rfl
  | ordered prev ih => exact ih h
  | stage prev opts f ih =>
    simp only [Chain.fuseExec] at h
    split_ifs at h
    rw [Chain.outs, List.map_map]
    exact ih h
  | async prev f ih => cases h
  | fence prev mode ih => cases h
  | expand prev opts f ih => cases h
  | orderedExpand prev opts f ih => cases h
  | groupedStage prev opts f ih => cases h
  | groupedExpand prev opts f ih => cases h
  | groupedAsync prev f ih => cases h

theorem fused_sequential (p : StreamPipe I m X) {op : I → X} (h : p.chain.fuseExec id = some op) (items : List I) :
    items.map op = p.sequential items := by
  have hone : ∀ x, p.chain.outs x = [op x] := by
    intro x
    have hx := fuseExec_outs p.chain h x
    rwa [List.map_id] at hx
  rw [StreamPipe.sequential, List.flatMap_congr fun x _ => hone x, List.map_eq_flatMap]

/-- the op as a chain of the fused core -/
def passOp (op : I → X) : Fused.FusedOp I X := ⟨.syncMap (.identity I) op, rfl⟩

/-- a pass maps the items, whatever its schedule -/
theorem FusedPass.eq {ex : Fused.Exec} {op : I → X} {items : List I} {out : List X} (h : FusedPass ex op items out) :
    out = items.map op := by
  cases h with
  | serial hp => rfl
  | index hp hr hq ho =>
    have hvec := Fused.intoVec_replay (passOp op) items (Fused.index_complete hr hq)
    exact Option.some.inj (ho.symm.trans hvec)

theorem fusedPass_exists (ex : Fused.Exec) (op : I → X) (items : List I) : ∃ out, FusedPass ex op items out := by
  cases hp : Fused.terminalPlan ex.knobs items.length ex.workload ex.numThreads with
  | serial => exact ⟨_, .serial hp⟩
  | parallel plan =>
    obtain ⟨n, tr, q, hr, hq⟩ := ForkJoin.runs_complete Fused.indexItem (fun _ _ => ()) (Fused.indexPool ex items plan)
    exact ⟨_, .index hp hr hq (Fused.intoVec_replay (passOp op) items (Fused.index_complete hr hq))⟩

theorem fused_eq {p : StreamPipe I m X} {op : I → X} (h : p.fused = some op) : p.chain.fuseExec id = some op := by
  unfold StreamPipe.fused at h
  split_ifs at h
  exact h

/-! ## Results -/

/-- `out` is the result the mode promises: everything, in input order unless the run is unordered -/
def StreamPipe.Complete (p : StreamPipe I m X) (items : List I) (out : List X) : Prop :=
  (m.isOrdered = false → out.Perm (p.sequential items)) ∧ (m.isOrdered = true → out = p.sequential items)

theorem complete_sequential (p : StreamPipe I m X) (items : List I) : p.Complete items (p.sequential items) :=
  ⟨fun _ => List.Perm.refl _, fun _ => rfl⟩

/-- the reorder window neither is pinned nor overflows -/
def StreamPipe.Automatic (p : StreamPipe I m X) (n : ℕ) : Prop :=
  m.isOrdered = true → p.reorderWindow = none ∧ n ≤ 2 ^ 63

theorem ended_complete {p : StreamPipe I m X} {items : List I} {s : (p.setup items.length).St}
    (hs : (p.setup items.length).Reachable items s) (hr : s.returned = true) (hc : s.cancelled = false)
    (ha : p.Automatic items.length) :
    (∃ b out, s.sink = .ok (b, out) ∧ p.Complete items out) ∨
      (p.Oversized items.length ∧ s.sink = .error .capacityOverflow) := by
  cases hm : m.isOrdered with
  | false =>
    obtain ⟨b, out, ho, hperm⟩ := ended_unordered hs hr hc hm
    exact .inl ⟨b, out, ho, fun _ => hperm, fun hm' => absurd (hm.symm.trans hm') (by simp)⟩
  | true =>
    rcases ended_ordered hs hr hc hm (ha hm).1 (ha hm).2 with ⟨b, ho⟩ | hpan
    · exact .inl ⟨b, _, ho, complete_sequential p items⟩
    · exact .inr hpan

theorem ends_complete {p : StreamPipe I m X} {items : List I} {out : List X} (h : p.Ends items out false)
    (ha : p.Automatic items.length) : p.Complete items out := by
  generalize hf : false = fired at h
  cases h with
  | fused hop hr =>
    rw [hr.eq, fused_sequential p (fused_eq hop)]
    exact complete_sequential p items
  | empty _ hi _ =>
    subst hi
    exact complete_sequential p []
  | drained _ _ hs hr _ ho =>
    obtain ⟨b, out', ho', hcomp⟩ := (ended_complete hs hr hf.symm ha).resolve_right (by simp [ho])
    obtain ⟨-, rfl⟩ := Prod.mk.inj (Except.ok.inj (ho.symm.trans ho'))
    exact hcomp

theorem ends_emits {p : StreamPipe I m X} {items : List I} {out : List X} {fired : Bool} (h : p.Ends items out fired)
    (hn : m.isOrdered = true → items.length ≤ 2 ^ 63) : p.Emits items out := by
  cases h with
  | fused hop hr =>
    rw [hr.eq, fused_sequential p (fused_eq hop)]
    exact emits_sequential p items
  | empty _ hi _ =>
    subst hi
    exact emits_sequential p []
  | drained _ _ hs hr _ ho =>
    obtain ⟨b, out', ho', hem⟩ := (ended_emits hs hr hn).resolve_right (by simp [ho])
    obtain ⟨-, rfl⟩ := Prod.mk.inj (Except.ok.inj (ho.symm.trans ho'))
    exact hem

theorem checked_drained (p : StreamPipe I m X) (items : List I) (hf : p.fused = none) (hi : items ≠ [])
    {s : (p.setup items.length).St} (hs : (p.setup items.length).Reachable items s) (hr : s.returned = true)
    (ht : s.cancelled = true → p.cancel = true) {b : ReorderBuffer (payload m X)} {out : List X} (ho : s.sink = .ok (b, out)) :
    p.Checked items (.classify out out.length s.cancelled) :=
  ⟨out, s.cancelled, .drained hf hi hs hr ht ho, rfl⟩

/-! ## A run in which two items change places -/

/-- rings of one slot, two workers, messages one at a time -/
def narrow : Ctx := ⟨1, fun _ => 2, fun _ => 1, fun _ => 1, 0, false, false, false, 1, 0⟩

/-- one stage that changes nothing, in input order -/
def twoWorkers (I : Type) (size : SlotSize) (window : Option ℕ+) : StreamPipe I (.items true false) I where
  chain := .ordered (.stage .start ⟨none, none⟩ id)
  ctx := narrow
  cancel := true
  computeWorkersPinned := false
  reorderWindow := window
  slotSize := size
  exec := ⟨⟨none, none, .off⟩, .balanced, 1, false⟩

section Swapped

variable {size : SlotSize} {window : Option ℕ+} {n w : ℕ} {items : List I} {x : Msg I} {rest taken : List (Msg I)} {ws : ℕ → Worker I I}
  {sink : Except Fault (ReorderBuffer I × List I)}

/-- the feeder between two items, the collector at its burst -/
def between (size : SlotSize) (window : Option ℕ+) (n : ℕ) (rest : List (Msg I)) (ws : ℕ → Worker I I) (rings : ℕ → List (Msg I))
    (sink : Except Fault (ReorderBuffer I × List I)) (taken : List (Msg I)) : ((twoWorkers I size window).setup n).St :=
  ⟨(⟨.stage [] rest, []⟩, ⟨ws, rings⟩), false, true, Drain.Pc.burst, sink, taken⟩

theorem claims (hs : ((twoWorkers I size window).setup n).Reachable items (between size window n (x :: rest) ws (fun _ => []) sink taken))
    (hi : ws 0 = .idle []) :
    ((twoWorkers I size window).setup n).Reachable items
      (between size window n rest (Function.update ws 0 (.work [x] [])) (fun _ => []) sink taken) := by
  rw [← Function.update_eq_self 0 ws, hi] at hs
  have hws : Function.update ws 0 (.work [x] []) = Function.update (Function.update ws 0 (.idle [])) 0 (.work [x] []) := by
    rw [Function.update_idem]
  rw [hws]
  exact hs.run [.net (.prev (.here 0 0 0)), .net (.prev (.here 0 0 0)), .net (.prev (.here 0 0 0)), .net (.here 0 0 0)] rfl

theorem delivers (hs : ((twoWorkers I size window).setup n).Reachable items (between size window n rest ws (fun _ => []) sink taken))
    (hw : w < 2) (hi : ws w = .work [x] []) :
    ∃ sink, ((twoWorkers I size window).setup n).Reachable items
      (between size window n rest (Function.update ws w (.idle [])) (fun _ => []) sink (taken ++ [x])) := by
  rw [← Function.update_eq_self w ws, hi] at hs
  have hws : Function.update ws w (.idle []) = Function.update (Function.update (Function.update (Function.update (Function.update ws w
      (.work [x] [])) w (.flush [x] [] false)) w (.flush [] [] false)) w (.work [] [])) w (.idle []) := by
    simp only [Function.update_idem]
  have hrs : (fun _ => [] : ℕ → List (Msg I)) = Function.update (Function.update (fun _ => []) 0 [x]) 0 [] := by
    rw [Function.update_idem, Function.update_eq_self]
  refine ⟨sink.bind fun st => [x].foldlM ((twoWorkers I size window).setup n).sink.insert st, ?_⟩
  rw [hws, hrs]
  refine hs.run [.net (.here w 0 0), .net (.here w 0 0), .net (.here w 0 0), .net (.here w 0 0), .recv 1] ?_
  interval_cases w
  · rfl
  · with_unfolding_all rfl

/-- the next item goes through worker 0 -/
theorem passes (hs : ((twoWorkers I size window).setup n).Reachable items (between size window n (x :: rest) ws (fun _ => []) sink taken))
    (hi : ws 0 = .idle []) :
    ∃ sink, ((twoWorkers I size window).setup n).Reachable items (between size window n rest ws (fun _ => []) sink (taken ++ [x])) := by
  obtain ⟨sink', h⟩ := delivers (claims hs hi) Nat.two_pos (Function.update_self ..)
  rw [Function.update_idem, ← hi, Function.update_eq_self] at h
  exact ⟨sink', h⟩

theorem passes_all (hs : ((twoWorkers I size window).setup n).Reachable items (between size window n rest ws (fun _ => []) sink taken))
    (hi : ws 0 = .idle []) :
    ∃ sink, ((twoWorkers I size window).setup n).Reachable items (between size window n [] ws (fun _ => []) sink (taken ++ rest)) := by
  induction rest generalizing sink taken with
  | nil => exact ⟨sink, by simpa using hs⟩
  | cons x rest ih =>
    obtain ⟨sink₁, h₁⟩ := passes hs hi
    obtain ⟨sink₂, h₂⟩ := ih h₁
    exact ⟨sink₂, by simpa using h₂⟩

theorem link_closed {A B : Type} {prev : Net I A} {cfg : LinkCfg} {g : A → List B} {s : (Net.link prev cfg g).St}
    (h : ∀ w < (cfg.workers : ℕ), s.2.workers w = .exited) (r : ℕ) : (Net.link prev cfg g).isOpen s r = false := by
  refine List.any_eq_false.2 fun w hw => ?_
  rw [h w (List.mem_range.1 hw)]
  simp [Worker.isExited]

theorem single_close {T : Type} {v : View T} (hq : v.queue 0 = []) (ho : v.isOpen 0 = false) :
    Single.step 0 .burst v 1 = some (.returned, none) := by
  simp [Single.step, Drain.recvStep, Drain.tryRecv, Single.load, hq, ho, Drain.St.close]

/-- with both workers gone the collector returns -/
theorem returns {st : FeedSt I × LinkSt I I}
    (hs : ((twoWorkers I size window).setup n).Reachable items ⟨st, false, true, Drain.Pc.burst, sink, taken⟩)
    (h0 : st.2.workers 0 = .exited) (h1 : st.2.workers 1 = .exited) (hr : st.2.rings 0 = []) :
    ((twoWorkers I size window).setup n).Reachable items
      ⟨st, false, true, Drain.Pc.returned, sink.bind ((twoWorkers I size window).setup n).sink.eof, taken⟩ := by
  have hopen : ((twoWorkers I size window).setup n).net.isOpen st 0 = false := by
    refine link_closed (fun w hw => ?_) 0
    have hw : w < 2 := hw
    interval_cases w
    · exact h0
    · exact h1
  have hstep : ((twoWorkers I size window).setup n).recv.step Drain.Pc.burst (((twoWorkers I size window).setup n).net.view st) 1 =
      some (Drain.Pc.returned, none) := single_close hr hopen
  refine hs.run [.recv 1] ?_
  simp only [Setup.run, List.foldlM_cons, Setup.step, if_true]
  rw [hstep]
  rfl

theorem finishes (hs : ((twoWorkers I size window).setup n).Reachable items (between size window n [] ws (fun _ => []) sink taken))
    (h0 : ws 0 = .idle []) (h1 : ws 1 = .idle []) :
    ∃ s, ((twoWorkers I size window).setup n).Reachable items s ∧ s.returned = true ∧ s.cancelled = false ∧ s.taken = taken := by
  rw [← Function.update_eq_self 1 ws, ← Function.update_eq_self 0 (Function.update ws 1 (ws 1)),
    show Function.update ws 1 (ws 1) 0 = .idle [] from h0, h1] at hs
  have hrun := hs.run [.net (.prev (.here 0 0 0)), .net (.here 0 0 0), .net (.here 0 0 0), .net (.here 1 0 0), .net (.here 1 0 0)] rfl
  exact ⟨_, returns hrun rfl rfl rfl, rfl, rfl, rfl⟩

/-- **a run in which the first two items change places** and the others follow one by one -/
theorem swapped_run (size : SlotSize) (window : Option ℕ+) (n : ℕ) (a b : I) (rest : List I) :
    ∃ s, ((twoWorkers I size window).setup n).Reachable (a :: b :: rest) s ∧ s.returned = true ∧ s.cancelled = false ∧
      s.taken = (1, b) :: (0, a) :: (rest.zipIdx 2).map Prod.swap := by
  have hboth : ((twoWorkers I size window).setup n).Reachable (a :: b :: rest)
      (between size window n ((rest.zipIdx 2).map Prod.swap)
        (Function.update (Function.update (fun _ => .idle []) 0 (.work [(0, a)] [])) 1 (.work [(1, b)] [])) (fun _ => [])
        (.ok ((twoWorkers I size window).setup n).empty) []) :=
    ⟨[.spawn, .net (.prev (.here 0 0 0)), .net (.prev (.here 0 0 0)), .net (.prev (.here 0 0 0)), .net (.here 0 0 0),
      .net (.prev (.here 0 0 0)), .net (.prev (.here 0 0 0)), .net (.prev (.here 0 0 0)), .net (.here 1 0 0)], rfl⟩
  obtain ⟨sink₁, h₁⟩ := delivers hboth Nat.one_lt_two rfl
  obtain ⟨sink₀, h₀⟩ := delivers h₁ Nat.two_pos rfl
  obtain ⟨sink, hall⟩ := passes_all h₀ rfl
  exact finishes hall rfl rfl

end Swapped

/-! ## Theorems -/

/-- **Streaming runs compute the sequential result.** Whatever the chain, the worker counts, the capacities, the batch and
sharding knobs and the schedule: a run that was not cancelled returns everything, in input order unless it is unordered, when its
reorder window is the automatic one, or its collector panicked because the slots are more than a `Vec` can hold. The fused
pass-through, whenever it accepts the chain, returns the same, so it does not matter which of them a run takes. -/
theorem streaming_sequential (p : StreamPipe I m X) (items : List I) :
    (∀ s : (p.setup items.length).St, (p.setup items.length).Reachable items s → s.returned = true → s.cancelled = false →
      p.Automatic items.length → (∃ b out, s.sink = .ok (b, out) ∧ p.Complete items out) ∨
        (p.Oversized items.length ∧ s.sink = .error .capacityOverflow)) ∧
    (∀ op, p.chain.fuseExec id = some op → (∃ out, FusedPass p.exec op items out) ∧
      ∀ out, FusedPass p.exec op items out → out = p.sequential items) ∧
    ∀ out, p.Ends items out false → p.Automatic items.length → p.Complete items out := by
  refine ⟨fun s hs hr hc ha => ended_complete hs hr hc ha, fun op hop => ⟨fusedPass_exists p.exec op items, fun out h => ?_⟩,
    fun out h ha => ends_complete h ha⟩
  rw [h.eq, fused_sequential p hop]

/-- two items overtake each other between two workers and come out in input order -/
theorem streaming_sequential_swapped : ∃ s : ((twoWorkers ℕ wordSlot none).setup 2).St,
    ((twoWorkers ℕ wordSlot none).setup 2).Reachable [10, 20] s ∧ s.returned = true ∧ s.taken = ([(1, 20), (0, 10)] : List (Msg ℕ)) ∧
      ∃ b, s.sink = .ok (b, [10, 20]) := by
  obtain ⟨s, hs, hr, hc, ht⟩ := swapped_run wordSlot none 2 10 20 []
  obtain ⟨b, out, ho, -, hout⟩ := ((streaming_sequential (twoWorkers ℕ wordSlot none) [10, 20]).1 s hs hr hc fun _ =>
    ⟨rfl, by norm_num⟩).resolve_right fun hover => absurd hover.1.2 (by decide)
  obtain rfl := hout rfl
  exact ⟨s, hs, hr, ht, b, ho⟩

/-- more items than the automatic window has room for -/
def overflowing : List Unit := () :: () :: List.replicate (2 ^ 63 - 1) ()

theorem overflowing_length : overflowing.length = 2 ^ 63 + 1 := by
  rw [overflowing, List.length_cons, List.length_cons, List.length_replicate]
  norm_num

theorem replicate_tags (j k : ℕ) : ((List.replicate k ()).zipIdx j).map Prod.swap = (List.range' j k).map fun s => (s, ()) := by
  induction k generalizing j with
  | zero => rfl
  | succ k ih =>
    rw [List.replicate_succ, List.zipIdx_cons, List.map_cons, ih, List.range'_succ, List.map_cons]
    rfl

/-- the buffer drops an item before the flush, so one is missing at the end -/
theorem overflowing_end : ∃ (b : ReorderBuffer Unit) (out : List Unit),
    (firstSwapped.foldlM Drain.ordered.insert ((auto (2 ^ 63 + 1) 0).buffer unitSlot, [])).bind Drain.ordered.eof = .ok (b, out) ∧
      out.length < 2 ^ 63 + 1 := by
  have hseqs := firstSwapped_seqs
  have hsmall : ∀ o ∈ firstSwapped, o.1 + 1 < maxVal := by
    intro o ho
    have hlt := List.mem_range.1 (hseqs.mem_iff.1 (List.mem_map_of_mem ho))
    have hbig : 2 ^ 63 + 2 < maxVal := by decide
    omega
  obtain ⟨b₀, out₀, hrun, hdrop⟩ := auto_overflow
  have hno : run ((Drain.Sizing.auto (2 ^ 63 + 1) 0).window.buffer unitSlot) firstSwapped ≠ .error .capacityOverflow := by
    intro hpan
    cases hrun.symm.trans hpan
  obtain ⟨b, em, ev, hend, -, hperm, hev⟩ := Drain.ordered_end_of_run unitSlot (.auto (2 ^ 63 + 1) 0)
    (hseqs.nodup_iff.2 List.nodup_range) hsmall hno
  refine ⟨b, em.map Prod.snd, hend, ?_⟩
  have heof : Drain.ordered.eof (b₀, out₀) = .ok (b, em.map Prod.snd) := by
    change (run ((auto (2 ^ 63 + 1) 0).buffer unitSlot) firstSwapped).bind Drain.ordered.eof = _ at hend
    rw [← hend, hrun]
    rfl
  have hb : b.dropped = b₀.dropped := Drain.ordered_eof_dropped heof
  have hlen := hperm.length_eq
  have htot := hseqs.length_eq
  rw [List.length_map, List.length_range] at htot
  rw [List.length_append] at hlen
  rw [List.length_map]
  omega

theorem twoWorkers_sequential (size : SlotSize) (window : Option ℕ+) (items : List I) :
    (twoWorkers I size window).sequential items = items := by
  rw [← fused_sequential (twoWorkers I size window) rfl]
  exact List.map_id items

theorem twoWorkers_sink {size : SlotSize} {items : List I} {s : ((twoWorkers I size none).setup items.length).St}
    (hs : ((twoWorkers I size none).setup items.length).Reachable items s) (hr : s.returned = true) :
    s.sink = ((s.taken.foldlM Drain.ordered.insert ((auto items.length 0).buffer size, [])).bind Drain.ordered.eof).map
      (flatten fun x => [x]) :=
  sink_ordered hs hr rfl

/-- above 2^63 items the ceiling of the automatic window overflows, and the run that changes the places of the first two of them
returns without one -/
theorem overflowing_run : ∃ (s : ((twoWorkers Unit unitSlot none).setup overflowing.length).St) (b : ReorderBuffer Unit) (out : List Unit),
    ((twoWorkers Unit unitSlot none).setup overflowing.length).Reachable overflowing s ∧ s.returned = true ∧ s.cancelled = false ∧
      s.sink = .ok (b, out) ∧ out ≠ (twoWorkers Unit unitSlot none).sequential overflowing := by
  obtain ⟨s, hs, hr, hc, ht⟩ := swapped_run unitSlot none overflowing.length () () (List.replicate (2 ^ 63 - 1) ())
  rw [replicate_tags] at ht
  have htaken : s.taken = firstSwapped := ht
  obtain ⟨b, out, hend, hlen⟩ := overflowing_end
  have hsink := twoWorkers_sink hs hr
  rw [htaken, show auto overflowing.length 0 = auto (2 ^ 63 + 1) 0 by rw [overflowing_length]] at hsink
  refine ⟨s, b, out.flatMap fun x => [x], hs, hr, hc, ?_, fun hout => ?_⟩
  · exact hsink.trans (congrArg (Except.map (flatten fun x => [x])) hend)
  · rw [twoWorkers_sequential, List.flatMap_singleton'] at hout
    rw [hout, overflowing_length] at hlen
    exact lt_irrefl _ hlen

/-- **the bound on the input is needed** -/
theorem sequential_overflows : ∃ s : ((twoWorkers Unit unitSlot none).setup overflowing.length).St,
    ((twoWorkers Unit unitSlot none).setup overflowing.length).Reachable overflowing s ∧ s.returned = true ∧ s.cancelled = false ∧
      ∀ b, s.sink ≠ .ok (b, (twoWorkers Unit unitSlot none).sequential overflowing) := by
  obtain ⟨s, b, out, hs, hr, hc, ho, hne⟩ := overflowing_run
  refine ⟨s, hs, hr, hc, fun b' hb => hne ?_⟩
  rw [ho] at hb
  exact congrArg Prod.snd (Except.ok.inj hb)

/-- **Streaming runs are free of deadlock.** In every reachable state, whenever the token fired or not: until the collector has
returned somebody other than the token can make a step, and until everybody has returned as well; from there everybody can get
out, and whatever the schedule, only boundedly many steps are left. -/
theorem streaming_progress (p : StreamPipe I m X) (items : List I) {s : (p.setup items.length).St}
    (hs : (p.setup items.length).Reachable items s) :
    (s.returned = false → ∃ a ≠ Setup.Step.cancel, ∃ s', (p.setup items.length).step items s a = some s') ∧
    (s.quiet = false → ∃ a ≠ Setup.Step.cancel, ∃ s', (p.setup items.length).step items s a = some s') ∧
    (∃ acts s', Setup.Step.cancel ∉ acts ∧ (p.setup items.length).run items s acts = some s' ∧ s'.quiet = true) ∧
    ∀ acts s', Setup.Step.cancel ∉ acts → (p.setup items.length).run items s acts = some s' → acts.length ≤ Setup.work s := by
  refine ⟨hs.inv.progress, hs.inv.progress_after, hs.inv.finishes, fun acts s' ha hr => ?_⟩
  have := hs.inv.schedule_bound ha hr
  omega

/-- a stage of two workers with a ring each -/
def twoShards : StreamPipe ℕ (.items false false) ℕ where
  chain := .stage .start ⟨none, none⟩ (· + 1)
  ctx := ⟨1, fun _ => 2, fun _ => 1, fun _ => 1, 0, false, true, false, 1, 0⟩
  cancel := true
  computeWorkersPinned := false
  reorderWindow := none
  slotSize := wordSlot
  exec := ⟨⟨none, none, .off⟩, .balanced, 1, false⟩

/-- an item is fed and goes through worker 0 into its ring -/
def throughZero : List Setup.Step :=
  [.net (.prev (.here 0 0 0)), .net (.prev (.here 0 0 0)), .net (.prev (.here 0 0 0)), .net (.here 0 0 0), .net (.here 0 0 0),
    .net (.here 0 0 0), .net (.here 0 0 0), .net (.here 0 0 0)]

/-- the collector finds nothing and blocks on the ring of worker 1; then worker 0 fills its own ring and blocks on it -/
def anchored : List Setup.Step :=
  .spawn :: List.replicate 7 (.recv 0) ++ (List.replicate 4 throughZero).flatten ++ throughZero.take 5

/-- the collector waits on one ring while the other is full, and the run goes on -/
theorem streaming_progress_anchored : ∃ s : (twoShards.setup 6).St, (twoShards.setup 6).Reachable [0, 1, 2, 3, 4, 5] s ∧
    (twoShards.setup 6).step [0, 1, 2, 3, 4, 5] s (.recv 0) = none ∧
    (twoShards.setup 6).step [0, 1, 2, 3, 4, 5] s (.net (.here 0 0 0)) = none ∧
    ∃ a ≠ Setup.Step.cancel, ∃ s', (twoShards.setup 6).step [0, 1, 2, 3, 4, 5] s a = some s' := by
  obtain ⟨s, hs, hb⟩ := (Option.any_eq_true _ _).1 (show ((twoShards.setup 6).run [0, 1, 2, 3, 4, 5]
    ((twoShards.setup 6).init [0, 1, 2, 3, 4, 5]) anchored).any (fun s => !s.returned &&
      ((twoShards.setup 6).step [0, 1, 2, 3, 4, 5] s (.recv 0)).isNone &&
      ((twoShards.setup 6).step [0, 1, 2, 3, 4, 5] s (.net (.here 0 0 0))).isNone) = true by decide +kernel)
  simp only [Bool.and_eq_true, Bool.not_eq_true', Option.isNone_iff_eq_none] at hb
  have hreach : (twoShards.setup 6).Reachable [0, 1, 2, 3, 4, 5] s := ⟨anchored, hs⟩
  exact ⟨s, hreach, hb.1.2, hb.2, (streaming_progress twoShards [0, 1, 2, 3, 4, 5] hreach).1 hb.1.1⟩

/-- **What the outcome of a run means.** A collector that returns never faults, but for slots that are more than a `Vec` can hold.
A run classified as completed has returned
everything, in input order unless it is unordered, when its reorder window is not pinned. A cancelled run returns the items of
some of the messages, none of them twice, in increasing seq in an ordered run, and so does every run under a pinned window. -/
theorem outcome_sound (p : StreamPipe I m X) (items : List I) (hn : m.isOrdered = true → items.length ≤ 2 ^ 63) :
    (∀ s : (p.setup items.length).St, (p.setup items.length).Reachable items s → s.returned = true →
      (∃ st, s.sink = .ok st) ∨ (p.Oversized items.length ∧ s.sink = .error .capacityOverflow)) ∧
    (∀ out, p.Checked items (.completed out) → p.Emits items out ∧
      ((m.isOrdered = true → p.reorderWindow = none) → p.Complete items out)) ∧
    ∀ part emitted, p.Checked items (.cancelled part emitted) →
      part.Subperm (p.sequential items) ∧ p.Emits items part ∧ emitted = part.length := by
  refine ⟨fun s hs hr => ?_, ?_, ?_⟩
  · rcases ended_emits hs hr hn with ⟨b, out, ho, -⟩ | hpan
    · exact .inl ⟨(b, out), ho⟩
    · exact .inr hpan
  · rintro out ⟨out', fired, hends, hc⟩
    cases fired with
    | true => cases hc
    | false =>
      cases hc
      exact ⟨ends_emits hends hn, fun hw => ends_complete hends fun hm => ⟨hw hm, hn hm⟩⟩
  · rintro part emitted ⟨out', fired, hends, hc⟩
    cases fired with
    | false => cases hc
    | true =>
      cases hc
      exact ⟨(ends_emits hends hn).subperm, ends_emits hends hn, rfl⟩

/-- the first item is collected, then the token fires and everybody leaves -/
def cancelledAfterOne : List Setup.Step :=
  .spawn :: throughZero ++ [.recv 1, .cancel, .net (.prev (.here 0 0 0)), .net (.here 0 0 0), .net (.here 0 0 0),
    .net (.here 1 0 0), .net (.here 1 0 0), .recv 1]

/-- a run of three items, cancelled after the first -/
theorem outcome_sound_cancelled : (twoWorkers ℕ wordSlot none).Checked [10, 20, 30] (.cancelled [10] 1) ∧
    [10].Subperm ((twoWorkers ℕ wordSlot none).sequential [10, 20, 30]) := by
  obtain ⟨s, hs, hb⟩ := (Option.any_eq_true _ _).1 (show (((twoWorkers ℕ wordSlot none).setup 3).run [10, 20, 30]
    (((twoWorkers ℕ wordSlot none).setup 3).init [10, 20, 30]) cancelledAfterOne).any (fun s => s.returned && s.cancelled &&
      (match s.sink with
      | .ok (_, out) => out == [10]
      | .error _ => false)) = true by decide +kernel)
  simp only [Bool.and_eq_true] at hb
  obtain ⟨b, hsink⟩ : ∃ b, s.sink = .ok (b, [10]) := by
    have h := hb.2
    split at h
    case h_1 b out heq => exact ⟨b, by rw [heq, eq_of_beq h]⟩
    case h_2 => cases h
  have hchecked := checked_drained (twoWorkers ℕ wordSlot none) [10, 20, 30] rfl (by simp) ⟨_, hs⟩ hb.1.1 (fun _ => rfl) hsink
  rw [hb.1.2] at hchecked
  exact ⟨hchecked, ((outcome_sound (twoWorkers ℕ wordSlot none) [10, 20, 30] fun _ => by norm_num).2.2 _ _ hchecked).1⟩

/-- a window of one slot drops the second item when it comes first -/
theorem pinned_end : ((([(1, 20), (0, 10)] : List (Msg ℕ)).foldlM Drain.ordered.insert ((fixed 2 1).buffer wordSlot, [])).bind
    Drain.ordered.eof) = .ok (⟨[emptySlot], 1, 0, 0, 1, 1, 16⟩, [10]) := by
  decide

/-- **a completed run need not be complete**: under a pinned window it has dropped what the window could not hold, and above 2^63
items the automatic window drops too -/
theorem completed_incomplete :
    (∃ out, (twoWorkers ℕ wordSlot (some 1)).Checked [10, 20] (.completed out) ∧ out ≠ (twoWorkers ℕ wordSlot (some 1)).sequential [10, 20]) ∧
    ∃ out, (twoWorkers Unit unitSlot none).Checked overflowing (.completed out) ∧
      out ≠ (twoWorkers Unit unitSlot none).sequential overflowing := by
  refine ⟨⟨[10], ?_, ?_⟩, ?_⟩
  · obtain ⟨s, hs, hr, hc, ht⟩ := swapped_run wordSlot (some 1) 2 10 20 []
    have hsink := @sink_ordered _ _ _ _ [10, 20] _ hs hr rfl
    rw [ht] at hsink
    replace hsink := hsink.trans (congrArg (Except.map (flatten fun x => [x])) pinned_end)
    have hchecked := checked_drained (twoWorkers ℕ wordSlot (some 1)) [10, 20] rfl (by simp) hs hr (fun _ => rfl) hsink
    rw [hc] at hchecked
    exact hchecked
  · rw [twoWorkers_sequential]
    decide
  · obtain ⟨s, b, out, hs, hr, hc, ho, hne⟩ := overflowing_run
    have hchecked := checked_drained (twoWorkers Unit unitSlot none) overflowing rfl (List.cons_ne_nil _ _) hs hr (fun _ => rfl) ho
    rw [hc] at hchecked
    exact ⟨out, hchecked, hne⟩

end YouPipe.Stream
