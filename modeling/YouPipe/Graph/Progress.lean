/-
Graph runs keep their workers' invariants, and never deadlock.

A send never finds its receivers gone: a worker returns only when all its inputs are drained, and a drained ring has no
sender left. So every worker that has not returned holds all its handles, and waiting follows the ranks of the stations: for
room, towards the sinks, for input, towards the sources.

Results: `run_inv` (every reachable state of a valid network) and `graph_progress` (no reachable state of an accepted plan's
run is stuck before every worker has exited, and no worker waits for input while one of its inputs holds an item).
-/
import Mathlib.Tactic
import YouPipe.Core.Machine
import YouPipe.Graph.Run
import YouPipe.Graph.WorkerInv

namespace YouPipe.Graph

open YouPipe.Acyclic

variable {S R T : Type} [DecidableEq S] [DecidableEq R]

/-! ## States and handles -/

@[simp] theorem St.apply_worker (s : St S R T) (id : S × ℕ) (w : Worker R T) (eff : Effect R T) :
    (s.apply id w eff).worker = Function.update s.worker id w := by
  cases eff <;> rfl

/-- an empty ring stays empty unless something is pushed -/
theorem St.apply_queue_nil {s : St S R T} {id : S × ℕ} {w : Worker R T} {eff : Effect R T} {r : R} (hq : s.queue r = [])
    (hp : ∀ xs, eff ≠ .push r xs) : (s.apply id w eff).queue r = [] := by
  cases eff with
  | take r' m =>
    by_cases hr : r = r'
    · subst hr
      simp [St.apply, hq]
    · simp [St.apply, Function.update_of_ne hr, hq]
  | push r' xs =>
    have hr : r ≠ r' := by
      rintro rfl
      exact hp xs rfl
    simp [St.apply, Function.update_of_ne hr, hq]
  | _ => exact hq

namespace Network

variable {N : Network S R T} {rank : S → ℕ} {s s' : St S R T}

omit [DecidableEq S] in
theorem sender_iff {r : R} : (N.view s).sender r = true ↔ ∃ id ∈ N.ids, r ∈ (s.worker id).txs := by
  simp [Network.view]

omit [DecidableEq S] in
theorem receiver_iff {r : R} : (N.view s).receiver r = true ↔ ∃ id ∈ N.ids, r ∈ (s.worker id).fanin.rxs := by
  simp [Network.view]

/-! ## The invariant -/

structure Inv (N : Network S R T) (s : St S R T) : Prop where
  holds : ∀ id ∈ N.ids, Holds (N.spawn id.1) (N.view s) (s.worker id)
  absent : ∀ id ∉ N.ids, s.worker id = ⟨FanIn.new [], [], .done⟩

theorem init_inv (hv : N.Valid rank) : N.Inv N.init where
  holds id hid := by
    simp only [init, hid, if_true]
    exact fresh_holds _ _ (hv.fits id.1 (N.mem_ids.1 hid).1)
  absent id hid := by simp [init, hid]

omit [DecidableEq S] in
/-- **no send finds its receivers gone**: had the consumers returned, the ring would be drained, with no sender left -/
theorem Inv.receiver (h : N.Inv s) (hv : N.Valid rank) {id : S × ℕ} (hid : id ∈ N.ids) (hpc : (s.worker id).pc ≠ .done) :
    ∀ r ∈ (N.spawn id.1).outputs, (N.view s).receiver r = true := by
  intro r hr
  obtain ⟨st, hst, hin⟩ := hv.consumer id.1 (N.mem_ids.1 hid).1 r hr
  have hid' : (st, 0) ∈ N.ids := N.mem_ids.2 ⟨hst, hv.workers_pos st hst⟩
  have hh := h.holds _ hid'
  by_cases hdone : (s.worker (st, 0)).pc = .done
  · have hsend : (N.view s).sender r = true := by
      apply sender_iff.2
      exact ⟨id, hid, ((h.holds id hid).live hpc).txs ▸ hr⟩
    have hdr := (hh.eof hdone r hin).2
    rw [hsend] at hdr
    cases hdr
  · apply receiver_iff.2
    exact ⟨_, hid', (hh.live hdone).rxs ▸ hin⟩

theorem step_iff {a : Act S T} : N.step s a = some s' ↔
    ∃ w eff, (s.worker a.worker).next (N.spawn a.worker.1) (N.view s) a.pick a.item = some (w, eff) ∧
      s' = s.apply a.worker w eff := by
  simp only [step, Option.map_eq_some_iff, Prod.exists]
  constructor
  · rintro ⟨w, eff, hn, rfl⟩
    exact ⟨w, eff, hn, rfl⟩
  · rintro ⟨w, eff, hn, rfl⟩
    exact ⟨w, eff, hn, rfl⟩

/-- a step is one of a worker of the network, with what it gives -/
theorem Inv.step_sound (h : N.Inv s) (hv : N.Valid rank) {a : Act S T} {w : Worker R T} {eff : Effect R T}
    (hn : (s.worker a.worker).next (N.spawn a.worker.1) (N.view s) a.pick a.item = some (w, eff)) :
    a.worker ∈ N.ids ∧ Sound (N.spawn a.worker.1) (N.view s) (s.worker a.worker) w eff := by
  have hid : a.worker ∈ N.ids := by
    by_contra hid
    rw [h.absent _ hid] at hn
    cases hn
  exact ⟨hid, next_sound (hv.fits _ (N.mem_ids.1 hid).1) (h.holds _ hid) (h.receiver hv hid) hn⟩

/-- a drained ring stays drained: nobody holds a sender to push with, and no step adds one -/
theorem drained_apply {id : S × ℕ} (hid : id ∈ N.ids) {w : Worker R T} {eff : Effect R T}
    (hs : Sound (N.spawn id.1) (N.view s) (s.worker id) w eff) {r : R} (hd : (N.view s).drained r) :
    (N.view (s.apply id w eff)).drained r := by
  have hno : ∀ id' ∈ N.ids, r ∉ (s.worker id').txs := by
    intro id' hid' hr
    have hsend : (N.view s).sender r = true := sender_iff.2 ⟨id', hid', hr⟩
    rw [hd.2] at hsend
    cases hsend
  constructor
  · apply St.apply_queue_nil hd.1
    rintro xs rfl
    exact hno id hid hs.suits
  · rw [Bool.eq_false_iff]
    intro hsend
    obtain ⟨id', hid', hr⟩ := sender_iff.1 hsend
    rw [St.apply_worker] at hr
    by_cases heq : id' = id
    · subst heq
      rw [Function.update_self] at hr
      exact hno id' hid' (hs.txs hr)
    · rw [Function.update_of_ne heq] at hr
      exact hno id' hid' hr

theorem Inv.step (h : N.Inv s) (hv : N.Valid rank) {a : Act S T} (hs : N.step s a = some s') : N.Inv s' := by
  obtain ⟨w, eff, hn, rfl⟩ := step_iff.1 hs
  obtain ⟨hid, hsound⟩ := h.step_sound hv hn
  constructor
  · intro id hid'
    rw [St.apply_worker]
    by_cases heq : id = a.worker
    · subst heq
      rw [Function.update_self]
      exact hsound.holds.mono fun r hd => drained_apply hid hsound hd
    · rw [Function.update_of_ne heq]
      exact (h.holds id hid').mono fun r hd => drained_apply hid hsound hd
  · intro id hid'
    have hne : id ≠ a.worker := by
      rintro rfl
      exact hid' hid
    rw [St.apply_worker, Function.update_of_ne hne]
    exact h.absent id hid'

/-- the invariant along a run -/
theorem Inv.run (h : N.Inv s) (hv : N.Valid rank) {acts : List (Act S T)} (hr : N.run s acts = some s') : N.Inv s' :=
  Machine.run_keeps (fun _ h hs => h.step hv hs) h hr

/-! ## Deadlock -/

theorem blocked_iff {id : S × ℕ} :
    N.Blocked s id ↔ ∀ m y, (s.worker id).next (N.spawn id.1) (N.view s) m y = none := by
  simp [Blocked, Network.step]

omit [DecidableEq S] in
/-- a worker that waits for input waits for a worker upstream -/
theorem Inv.upstream (h : N.Inv s) (hv : N.Valid rank) {id : S × ℕ} (hid : id ∈ N.ids)
    (hw : WaitsInput (N.spawn id.1) (N.view s) (s.worker id)) :
    ∃ id' ∈ N.ids, ¬ (s.worker id').exited ∧ rank id'.1 < rank id.1 := by
  obtain ⟨i, hi, hc⟩ := hw.some_open
  have hr := List.getElem?_eq_getElem hi
  obtain ⟨id', hid', htx⟩ := sender_iff.1 (hw.empty i _ hr hc).2
  refine ⟨id', hid', fun hex => by simp [hex.2.1] at htx, ?_⟩
  exact hv.rank_lt _ (N.mem_ids.1 hid').1 _ (N.mem_ids.1 hid).1 _ ((h.holds id' hid').txs_sub htx) (List.getElem_mem hi)

omit [DecidableEq S] in
/-- a worker that waits for room waits for a worker downstream, and that one does not wait for input: the full ring is an
input it has not marked -/
theorem Inv.downstream (h : N.Inv s) (hv : N.Valid rank) {id : S × ℕ} (hid : id ∈ N.ids)
    (hw : WaitsRoom (N.view s) (s.worker id)) :
    ∃ id' ∈ N.ids, ¬ (s.worker id').exited ∧ rank id.1 < rank id'.1 ∧
      ((s.worker id').pc ≠ .done → ¬ WaitsInput (N.spawn id'.1) (N.view s) (s.worker id')) := by
  obtain ⟨r, hr, hfull, hrecv⟩ := hw
  obtain ⟨id', hid', hrx⟩ := receiver_iff.1 hrecv
  have hin := (h.holds id' hid').rxs_sub hrx
  refine ⟨id', hid', fun hex => by simp [hex.2.2] at hrx, ?_, fun hpc hwait => ?_⟩
  · exact hv.rank_lt _ (N.mem_ids.1 hid).1 _ (N.mem_ids.1 hid').1 r ((h.holds id hid).txs_sub hr) hin
  · have hempty := hwait.all_empty ((h.holds id' hid').live hpc) r hin
    rw [hempty] at hfull
    exact absurd hfull (Nat.not_le.2 (hv.cap_pos r))

/-- **no deadlock**: some worker has a step until all have exited -/
theorem Inv.progress (h : N.Inv s) (hv : N.Valid rank) {id : S × ℕ} (hid : id ∈ N.ids) (hex : ¬ (s.worker id).exited) :
    ∃ id' ∈ N.ids, ¬ N.Blocked s id' := by
  by_contra hall
  push Not at hall
  have hcases : ∀ id ∈ N.ids, ¬ (s.worker id).exited →
      ((s.worker id).pc ≠ .done ∧ WaitsInput (N.spawn id.1) (N.view s) (s.worker id)) ∨
        ((s.worker id).pc ≠ .done ∧ WaitsRoom (N.view s) (s.worker id)) := by
    intro id hid hex
    rcases blocked_cases (h.holds id hid) (blocked_iff.1 (hall id hid)) with hin | hroom | hdone
    · exact .inl hin
    · exact .inr hroom
    · exact absurd hdone hex
  refine @none_of_all_wait _ (fun id => rank id.1) (fun id => id ∈ N.ids ∧ ¬ (s.worker id).exited)
    (fun id => (s.worker id).pc ≠ .done ∧ WaitsRoom (N.view s) (s.worker id))
    (fun id => (s.worker id).pc ≠ .done ∧ WaitsInput (N.spawn id.1) (N.view s) (s.worker id))
    (N.stations.map rank).sum ?_ ?_ ?_ ?_ id ⟨hid, hex⟩
  · rintro id ⟨hid, -⟩
    exact List.le_sum_of_mem (List.mem_map_of_mem (N.mem_ids.1 hid).1)
  · rintro id ⟨hid, hex⟩
    exact (hcases id hid hex).symm
  · rintro id ⟨hid, -⟩ ⟨-, hroom⟩
    obtain ⟨id', hid', hex', hlt, hnot⟩ := h.downstream hv hid hroom
    refine ⟨id', ⟨hid', hex'⟩, (hcases id' hid' hex').resolve_left ?_, hlt⟩
    exact fun hin => hnot hin.1 hin.2
  · rintro id ⟨hid, -⟩ ⟨-, hin⟩
    obtain ⟨id', hid', hex', hlt⟩ := h.upstream hv hid hin
    exact ⟨id', ⟨hid', hex'⟩, hlt⟩

/-- a worker parked in a receive has a step when any of its inputs holds an item -/
theorem Inv.not_blocked_of_item (h : N.Inv s) {id : S × ℕ} (hid : id ∈ N.ids) (hrecv : (s.worker id).receiving) {r : R}
    (hr : r ∈ (N.spawn id.1).inputs) (hq : s.queue r ≠ []) : ¬ N.Blocked s id := by
  intro hb
  have hne : (s.worker id).pc ≠ .done := by rcases hrecv with hpc | ⟨k, hpc⟩ <;> simp [hpc]
  have hl := (h.holds id hid).live hne
  have hwait : WaitsInput (N.spawn id.1) (N.view s) (s.worker id) := by
    have hb' := blocked_iff.1 hb
    rcases hrecv with hpc | ⟨k, hpc⟩
    · simp only [Worker.next, hpc] at hb'
      exact anchor_waits hl fun m => hb' m none
    · simp only [Worker.next, hpc] at hb'
      exact single_waits hl hpc (hb' 0 none)
  exact hq (hwait.all_empty hl r hr)

/-- what a worker without a step is at -/
theorem Inv.blocked (h : N.Inv s) {id : S × ℕ} (hid : id ∈ N.ids) (hb : N.Blocked s id) :
    (s.worker id).exited ∨
    ((∀ r ∈ (N.spawn id.1).inputs, s.queue r = []) ∧ ∃ r ∈ (N.spawn id.1).inputs, (N.view s).sender r = true) ∨
    ∃ r ∈ (s.worker id).txs, N.cap r ≤ (s.queue r).length ∧ (N.view s).receiver r = true := by
  rcases blocked_cases (h.holds id hid) (blocked_iff.1 hb) with ⟨hpc, hin⟩ | ⟨-, hroom⟩ | hdone
  · obtain ⟨i, hi, hc⟩ := hin.some_open
    refine .inr (.inl ⟨hin.all_empty ((h.holds id hid).live hpc), _, List.getElem_mem hi, ?_⟩)
    exact (hin.empty i _ (List.getElem?_eq_getElem hi) hc).2
  · exact .inr (.inr hroom)
  · exact .inl hdone

end Network

/-! ## Graph runs -/

/-- **no graph run deadlocks**: for every accepted plan, every worker count, buffer size and knob setting and every
interleaving,
- while some worker has not exited, some worker has a step;
- a worker without a step has exited, or all its inputs are empty and one has a sender, or it sends on a full edge that has
  a receiver;
- in particular a worker parked in a receive, on one input or on several, is not blocked while any of its inputs holds an
  item. -/
theorem graph_progress {T : Type} (p : GraphPlan T) (cfg : Config) {order : List ℕ}
    (hok : p.validateAndOrder = .ok order) {acts : List (Act Station T)} {s : St Station Ring T}
    (hrun : (p.network order cfg).run (p.network order cfg).init acts = some s) :
    ((∃ id ∈ (p.network order cfg).ids, ¬ (s.worker id).exited) →
      ∃ a s', a.worker ∈ (p.network order cfg).ids ∧ (p.network order cfg).step s a = some s') ∧
    (∀ id ∈ (p.network order cfg).ids, (p.network order cfg).Blocked s id →
      (s.worker id).exited ∨
      ((∀ r ∈ ((p.network order cfg).spawn id.1).inputs, s.queue r = []) ∧
        ∃ r ∈ ((p.network order cfg).spawn id.1).inputs, ((p.network order cfg).view s).sender r = true) ∨
      ∃ r ∈ (s.worker id).txs, (p.network order cfg).cap r ≤ (s.queue r).length ∧
        ((p.network order cfg).view s).receiver r = true) ∧
    (∀ id ∈ (p.network order cfg).ids, (s.worker id).receiving →
      ∀ r ∈ ((p.network order cfg).spawn id.1).inputs, s.queue r ≠ [] → ¬ (p.network order cfg).Blocked s id) := by
  have hv : (p.network order cfg).Valid (GraphPlan.rank order) := network_valid (GraphPlan.validateAndOrder_ok hok)
  have h : (p.network order cfg).Inv s := (Network.init_inv hv).run hv hrun
  refine ⟨?_, fun id hid => h.blocked hid, fun id hid hrecv r => h.not_blocked_of_item hid hrecv⟩
  rintro ⟨id, hid, hex⟩
  obtain ⟨id', hid', hb⟩ := h.progress hv hid hex
  simp only [Network.Blocked, not_forall] at hb
  obtain ⟨pick, item, hstep⟩ := hb
  obtain ⟨s', hs'⟩ := Option.ne_none_iff_exists'.1 hstep
  exact ⟨_, s', hid', hs'⟩

/-- a source broadcast to a map and an expand node that join in one sink -/
def diamond : GraphPlan ℕ where
  nodes := [⟨"src", .source, .broadcast⟩, ⟨"inc", .sync (· + 1), .move⟩, ⟨"dup", .expand fun x => [x, x], .move⟩,
    ⟨"out", .sink, .move⟩]
  edges := [⟨0, 1⟩, ⟨0, 2⟩, ⟨1, 3⟩, ⟨2, 3⟩]
  bound := by decide

/-- two workers a node, rings of one item -/
def tight : Config where
  workers _ := 2
  buffer _ := 1
  claimCap _ := claimCap 4 2
  batchRecvCap := 4
  txBatch := true
  spin := false

/-- the source sends one item on both edges, the sink parks on its two empty inputs, and a map worker pushes to one of them -/
def parkedActs : List (Act Station ℕ) :=
  [⟨(.node 0, 0), 0, some 5⟩, ⟨(.node 0, 0), 0, none⟩, ⟨(.node 0, 0), 1, none⟩, ⟨(.node 0, 0), 0, none⟩,
   ⟨(.node 0, 0), 1, none⟩, ⟨(.node 3, 0), 0, none⟩, ⟨(.node 3, 0), 0, none⟩, ⟨(.node 3, 0), 0, none⟩,
   ⟨(.node 3, 0), 0, none⟩, ⟨(.node 3, 0), 0, none⟩, ⟨(.node 1, 1), 1, none⟩, ⟨(.node 1, 1), 0, none⟩,
   ⟨(.node 1, 1), 1, none⟩]

theorem graph_progress_diamond :
    ∃ s, (diamond.network [0, 1, 2, 3] tight).run (diamond.network [0, 1, 2, 3] tight).init parkedActs = some s ∧
      (s.worker (.node 3, 0)).pc = .anchor ∧ s.queue (.edge ⟨1, 3⟩) = [6] ∧
      ¬ (diamond.network [0, 1, 2, 3] tight).Blocked s (.node 3, 0) := by
  obtain ⟨s, hrun, hpc, hq⟩ : ∃ s,
      (diamond.network [0, 1, 2, 3] tight).run (diamond.network [0, 1, 2, 3] tight).init parkedActs = some s ∧
      (s.worker (.node 3, 0)).pc = .anchor ∧ s.queue (.edge ⟨1, 3⟩) = [6] := ⟨_, rfl, rfl, rfl⟩
  have hok : diamond.validateAndOrder = .ok [0, 1, 2, 3] := by rfl
  refine ⟨s, hrun, hpc, hq, ?_⟩
  apply (graph_progress diamond tight hok hrun).2.2 (.node 3, 0) (by decide) (.inl hpc) (.edge ⟨1, 3⟩) (by decide)
  simp [hq]

end YouPipe.Graph
