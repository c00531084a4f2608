/-
Streaming and graph runs on a shared pool whose stage functions fork and join on it: when some worker, collector or poster can go
on.

`Setup.engine` and `Network.engine` make a run of `Stream.Run` and of `Graph.Run` into an engine of `Pool.Nested`. Its parking jobs
are the loops the run submits through its lease: for a stream the feeder that does not fit its ring, the workers of its pool stages
and the forwarders of its fences; for a graph the feeders of its sync sources, its sync and expand workers and its sinks. Bridges,
async tasks and the collector run outside the pool. The fork/join work of a stage call is any function of the run's state.

The comment at `Registry::parking_slots` argues that a queued parking job finds a free worker. That is so (`Parking.Inv.free_worker`),
but a worker whose top job waits is no free worker, and `wait_until` starts whatever `find_work` returns:
- `nested_stuck`: the consumer of a chain is started on top of the producer, which waits in a join; then nobody can go on;
- `pool_liveness`: in every run in which parking jobs are only started on empty stacks no reachable state is stuck while an
  admitted run is unfinished.
-/
import Mathlib.Tactic
import YouPipe.Graph.Progress
import YouPipe.Pool.Nested
import YouPipe.Stream.Pipe

/-! ## Streaming runs -/

namespace YouPipe.Stream

open YouPipe.Admit (Form)
open YouPipe.Nested (Work Owner Engine)

variable {I A B O σ : Type}

namespace Net

/-- the links behind the feeder -/
def height : {O : Type} → Net I O → ℕ
  | _, .feed _ => 0
  | _, .link prev _ _ => prev.height + 1

/-- who makes a step: the link, counted from the feeder, which is 0, and the worker -/
def actor : {O : Type} → Net I O → Act → ℕ × ℕ
  | _, .feed _, _ => (0, 0)
  | _, .link prev _ _, .here w _ _ => (prev.height + 1, w)
  | _, .link prev _ _, .prev a => prev.actor a

/-- the feeder or the worker has returned -/
def exited : {O : Type} → (net : Net I O) → net.St → ℕ × ℕ → Bool
  | _, .feed cfg, s, _ => (Net.feed cfg).fed s
  | _, .link prev _ _, s, x => if x.1 = prev.height + 1 then (s.2.workers x.2).isExited else prev.exited s.1 x

/-- the step is the call of a stage function -/
def calls : {O : Type} → (net : Net I O) → Bool → net.St → Act → Bool
  | _, .feed _, _, _, _ => false
  | _, .link _ _ _, cancelled, s, .here w _ _ => match s.2.workers w with
    | .work (_ :: _) _ => !cancelled
    | _ => false
  | _, .link prev _ _, cancelled, s, .prev a => prev.calls cancelled s.1 a

end Net

theorem actor_le (net : Net I O) (a : Act) : (net.actor a).1 ≤ net.height := by
  induction net generalizing a with
  | feed cfg => exact le_refl 0
  | link prev cfg g ih =>
    cases a with
    | here w r k => exact le_refl _
    | prev a => exact (ih a).trans (Nat.le_succ _)

theorem fed_rests {cfg : FeedCfg} {s : (Net.feed cfg : Net I I).St} (h : (Net.feed cfg).fed s = true)
    (cancelled receivers : Bool) (k : ℕ) : feedStep cfg cancelled receivers s k = none := by
  obtain ⟨f, q⟩ := s
  cases f with
  | done => rfl
  | _ => cases h

/-- whoever has returned makes no step -/
theorem exited_rests {net : Net I O} {env : Env} {s : net.St} {a : Act} (h : net.exited s (net.actor a) = true) :
    net.step env s a = none := by
  induction net generalizing env a with
  | feed cfg =>
    cases a with
    | here w r k => exact fed_rests h _ _ k
    | prev a => rfl
  | link prev cfg g ih =>
    cases a with
    | here w r k =>
      have hw : s.2.workers w = .exited := isExited_iff.1 (by simpa [Net.exited, Net.actor] using h)
      simp only [Net.step, hw, Worker.step]
      exact ite_self none
    | prev a =>
      have hne : (prev.actor a).1 ≠ prev.height + 1 := Nat.ne_of_lt (Nat.lt_succ_of_le (actor_le prev a))
      have hp : prev.exited s.1 (prev.actor a) = true := by simpa [Net.exited, Net.actor, hne] using h
      simp only [Net.step, ih hp]
      rfl

theorem exited_take (net : Net I O) (s : net.St) (r m : ℕ) (x : ℕ × ℕ) : net.exited (net.take s r m) x = net.exited s x := by
  cases net with
  | feed cfg => rfl
  | link prev cfg g => rfl

/-- a step of the last link lets nobody return before it -/
theorem exited_applyEffect (prev : Net I A) (cfg : LinkCfg) (p : prev.St) (l : LinkSt A B) (w r : ℕ) (x : Worker A B × Effect B)
    (y : ℕ × ℕ) : prev.exited (applyEffect prev cfg p l w r x).1 y = prev.exited p y := by
  obtain ⟨x', e⟩ := x
  cases e with
  | silent => rfl
  | push z => rfl
  | take m => exact exited_take prev p r m y

/-- and stays so -/
theorem exited_step {net : Net I O} {env : Env} {s s' : net.St} {a : Act} {x : ℕ × ℕ} (h : net.exited s x = true)
    (hs : net.step env s a = some s') : net.exited s' x = true := by
  induction net generalizing env a with
  | feed cfg =>
    cases a with
    | here w r k =>
      rw [Net.step, fed_rests h] at hs
      cases hs
    | prev a => cases hs
  | link prev cfg g ih =>
    simp only [Net.exited] at h ⊢
    cases a with
    | here w r k =>
      obtain ⟨-, -, -, y, e, hy, rfl⟩ := step_here hs
      rw [applyEffect_workers, exited_applyEffect]
      split_ifs at h ⊢ with hx
      · rcases eq_or_ne x.2 w with rfl | hne
        · rw [isExited_iff.1 h] at hy
          cases hy
        · rwa [Function.update_of_ne hne]
      · exact h
    | prev a =>
      obtain ⟨p, hp, rfl⟩ := step_prev hs
      split_ifs at h ⊢ with hx
      · exact h
      · exact ih h hp

namespace Setup

variable (c : Setup I O σ) (items : List I) (parking : List (ℕ × ℕ))

/-- who makes a step: a parking job, the token, or somebody outside the pool -/
def owner : Step → Owner
  | .cancel => .token
  | .net a => if c.net.actor a ∈ parking then .job (parking.idxOf (c.net.actor a)) else .outside
  | .spawn | .recv _ => .outside

/-- the fork/join work of a step -/
def stageWork (body : c.St → ℕ × ℕ → Work) (s : c.St) : Step → Work
  | .net a => if c.net.calls s.cancelled s.net a then body s (c.net.actor a) else .done
  | _ => .done

/-- parking job `k` has returned -/
def jobExited (s : c.St) (k : ℕ) : Bool := parking[k]?.any fun x => c.net.exited s.net x

variable {c items parking}

theorem owner_job {m : Step} {k : ℕ} (h : c.owner parking m = .job k) :
    ∃ a, m = .net a ∧ parking[k]? = some (c.net.actor a) := by
  cases m with
  | net a =>
    simp only [owner] at h
    split_ifs at h with hmem
    cases h
    exact ⟨a, rfl, List.getElem?_idxOf hmem⟩
  | cancel | spawn | recv => cases h

theorem jobExited_rests {s : c.St} {m : Step} {k : ℕ} (h : c.jobExited parking s k = true) (hm : c.owner parking m = .job k) :
    c.step items s m = none := by
  obtain ⟨a, rfl, ha⟩ := owner_job hm
  rw [jobExited, ha] at h
  simp only [step, exited_rests h]
  rfl

theorem jobExited_step {s s' : c.St} {m : Step} {k : ℕ} (h : c.jobExited parking s k = true) (hs : c.step items s m = some s') :
    c.jobExited parking s' k = true := by
  unfold jobExited at h ⊢
  cases hx : parking[k]? with
  | none => simp [hx] at h
  | some x =>
    rw [hx] at h
    show c.net.exited s'.net x = true
    cases m with
    | cancel =>
      cases hs
      exact h
    | spawn =>
      simp only [step] at hs
      split_ifs at hs
      cases hs
      exact h
    | net a =>
      obtain ⟨n, hn, rfl⟩ := step_net hs
      exact exited_step h hn
    | recv m =>
      obtain ⟨-, p, t, -, rfl⟩ := step_recv hs
      rcases t with _ | ⟨r, k⟩
      · exact h
      · exact (exited_take c.net s.net r k x).trans h

/-- a streaming run whose loops in `parking` are the jobs it submits to the pool -/
def engine (c : Setup I O σ) (items : List I) (parking : List (ℕ × ℕ)) (body : c.St → ℕ × ℕ → Work) : Engine where
  St := c.St
  Move := Step
  init := c.init items
  step := c.step items
  owner := c.owner parking
  work := c.stageWork body
  jobs := parking.length
  exited := c.jobExited parking
  finished := St.quiet
  Inv := Inv items
  init_inv := init_inv c items
  step_inv := step_inv
  progress := by
    intro s h hq
    obtain ⟨a, ha, s', hs⟩ := h.progress_after hq
    refine ⟨a, s', fun ht => ha ?_, hs⟩
    cases a with
    | cancel => rfl
    | net a =>
      simp only [owner] at ht
      split_ifs at ht
    | spawn | recv => cases ht
  owned := by
    intro m k hm
    obtain ⟨a, -, ha⟩ := owner_job hm
    exact (List.getElem?_eq_some_iff.1 ha).1
  rests := jobExited_rests
  stays := jobExited_step

end Setup

/-- the workers of the last link -/
def Net.hosts : Net I O → List (ℕ × ℕ)
  | .feed _ => []
  | .link prev cfg _ => (List.range cfg.workers).map fun w => (prev.height + 1, w)

/-- the loops a chain submits as parking jobs, in the order of the spawn walk: the workers of its pool stages and the forwarders of
its fences -/
def Chain.parking (ctx : Ctx) (txBatch : Bool) : {m : Mode} → {X : Type} → Chain I m X → Form → List (ℕ × ℕ)
  | _, _, .start, _ => []
  | _, _, .ordered prev, form => prev.parking ctx txBatch form
  | _, _, .stage prev opts f, form =>
    prev.parking ctx txBatch form.intoSync ++ ((Chain.stage prev opts f).spawn ctx txBatch form).net.hosts
  | _, _, .expand prev opts f, form =>
    prev.parking ctx txBatch form.intoSync ++ ((Chain.expand prev opts f).spawn ctx txBatch form).net.hosts
  | _, _, .orderedExpand prev opts f, form =>
    prev.parking ctx txBatch form.intoSync ++ ((Chain.orderedExpand prev opts f).spawn ctx txBatch form).net.hosts
  | _, _, .groupedStage prev opts f, form =>
    prev.parking ctx txBatch form.intoSync ++ ((Chain.groupedStage prev opts f).spawn ctx txBatch form).net.hosts
  | _, _, .groupedExpand prev opts f, form =>
    prev.parking ctx txBatch form.intoSync ++ ((Chain.groupedExpand prev opts f).spawn ctx txBatch form).net.hosts
  | _, _, .async prev _, form => prev.parking ctx txBatch form.intoAsync
  | _, _, .groupedAsync prev _, form => prev.parking ctx txBatch form.intoAsync
  | _, _, .fence prev mode, form =>
    prev.parking ctx txBatch form.intoSync ++ ((Chain.fence prev mode).spawn ctx txBatch form).net.hosts

/-- `route_feeder`: the feeder is a job when the items do not fit its ring -/
def StreamPipe.parking {X : Type} {m : Mode} (p : StreamPipe I m X) (n : ℕ) : List (ℕ × ℕ) :=
  (if n ≤ p.ctx.feederCap then [] else [(0, 0)]) ++
    p.chain.parking p.ctx (p.ctx.streamTxBatch && !p.chain.shape.hasAsyncStage)
      (if p.chain.shape.firstConsumerIsAsync = some true then .spawnAsyncFeederSingle else .spawnSingle)

end YouPipe.Stream

/-! ## Graph runs -/

namespace YouPipe.Graph

open YouPipe.Nested (Work Owner Engine)

variable {S R T : Type}

/-- the worker has returned and dropped its handles -/
def Worker.gone (w : Worker R T) : Bool :=
  match w.pc, w.txs, w.fanin.rxs with
  | .done, [], [] => true
  | _, _, _ => false

theorem gone_iff {w : Worker R T} : w.gone = true ↔ w.exited := by
  unfold Worker.gone Worker.exited
  constructor
  · intro h
    split at h
    · next hpc htx hrx => exact ⟨hpc, htx, hrx⟩
    · cases h
  · rintro ⟨hpc, htx, hrx⟩
    rw [hpc, htx, hrx]

/-- a step from here calls a closure, a source's iterator or a sink -/
def Pc.calls : Pc T → Bool
  | .work (_ :: _) _ | .pull _ => true
  | _ => false

namespace Network

variable [DecidableEq S] [DecidableEq R] {N : Network S R T} {parking : List (S × ℕ)} {s s' : St S R T}

/-- who makes a step: a parking job, or somebody outside the pool -/
def owner (parking : List (S × ℕ)) (a : Act S T) : Owner :=
  if a.worker ∈ parking then .job (parking.idxOf a.worker) else .outside

def jobGone (parking : List (S × ℕ)) (s : St S R T) (k : ℕ) : Bool := parking[k]?.any fun id => (s.worker id).gone

theorem owner_job {a : Act S T} {k : ℕ} (h : owner parking a = .job k) : parking[k]? = some a.worker := by
  unfold owner at h
  split_ifs at h with hmem
  cases h
  exact List.getElem?_idxOf hmem

theorem gone_rests {a : Act S T} (h : (s.worker a.worker).gone = true) : N.step s a = none := by
  obtain ⟨hpc, htx, hrx⟩ := gone_iff.1 h
  simp [step, Worker.next, hpc, Worker.dropStep, htx, hrx]

theorem jobGone_step {a : Act S T} {k : ℕ} (h : jobGone parking s k = true) (hs : N.step s a = some s') :
    jobGone parking s' k = true := by
  unfold jobGone at h ⊢
  cases hx : parking[k]? with
  | none => simp [hx] at h
  | some id =>
    rw [hx] at h
    show (s'.worker id).gone = true
    obtain ⟨w, eff, -, rfl⟩ := step_iff.1 hs
    rcases eq_or_ne id a.worker with rfl | hne
    · rw [gone_rests h] at hs
      cases hs
    · rwa [St.apply_worker, Function.update_of_ne hne]

/-- a graph run whose workers in `parking` are the jobs it submits to the pool -/
def engine (N : Network S R T) {rank : S → ℕ} (hv : N.Valid rank) (parking : List (S × ℕ)) (body : St S R T → S × ℕ → Work) :
    Engine where
  St := Graph.St S R T
  Move := Act S T
  init := N.init
  step := N.step
  owner := owner parking
  work s a := if (s.worker a.worker).pc.calls then body s a.worker else .done
  jobs := parking.length
  exited := jobGone parking
  finished s := N.ids.all fun id => (s.worker id).gone
  Inv := N.Inv
  init_inv := init_inv hv
  step_inv := fun h hs => h.step hv hs
  progress := by
    intro s h hfin
    obtain ⟨id, hid, hex⟩ := List.all_eq_false.1 hfin
    obtain ⟨id', -, hb⟩ := h.progress hv hid fun he => hex (gone_iff.2 he)
    simp only [Blocked, not_forall] at hb
    obtain ⟨pick, item, hstep⟩ := hb
    obtain ⟨s', hs'⟩ := Option.ne_none_iff_exists'.1 hstep
    refine ⟨_, s', fun ht => ?_, hs'⟩
    simp only [owner] at ht
    split_ifs at ht
  owned := fun hm => (List.getElem?_eq_some_iff.1 (owner_job hm)).1
  rests := by
    intro s a k h hm
    rw [jobGone, owner_job hm] at h
    exact gone_rests h
  stays := jobGone_step

end Network

/-- the workers a graph submits as parking jobs: the feeders of its sync sources, its sync and expand workers, its sinks -/
def GraphPlan.parking (p : GraphPlan T) (order : List ℕ) (cfg : Config) : List (Station × ℕ) :=
  (order.filter fun u => !(p.kind u).isAsync).flatMap fun u => (List.range (p.nodeWorkers cfg u)).map fun w => (.node u, w)

end YouPipe.Graph

/-! ## The pool -/

namespace YouPipe.Nested

/-- a run that is started on a pool: a stream with its input, or an accepted graph, with the fork/join work of its stage calls -/
inductive Client : Type 1 where
  | stream {I X : Type} {m : Stream.Mode} (p : Stream.StreamPipe I m X) (items : List I)
      (body : (p.setup items.length).St → ℕ × ℕ → Work)
  | graph {T : Type} (p : Graph.GraphPlan T) (cfg : Graph.Config) (order : List ℕ) (hok : p.validateAndOrder = .ok order)
      (body : Graph.St Graph.Station Graph.Ring T → Graph.Station × ℕ → Work)

def Client.engine : Client → Engine
  | .stream p items body => (p.setup items.length).engine items (p.parking items.length) body
  | .graph p cfg order hok body =>
    (p.network order cfg).engine (Graph.network_valid (Graph.GraphPlan.validateAndOrder_ok hok)) (p.parking order cfg) body

/-- a pool, the runs that are started on it, and what each reserves for its parking jobs -/
structure Clients (R : Type) where
  requested : ℕ
  client : R → Client
  need : R → ℕ
  covers : ∀ r, (client r).engine.jobs ≤ need r

def Clients.load {R : Type} (c : Clients R) : Load R := ⟨c.requested, fun r => (c.client r).engine, c.need, c.covers⟩

namespace Load

/-- **no state of a pool is stuck in which parking jobs are only started on empty stacks.** For every pool size, every finite set
of streams and graphs that hold leases for their parking jobs, whatever fork/join work their stage functions do, and every
interleaving in which no wait starts a parking job: while an admitted run is unfinished, some worker, collector or poster has a
step. -/
theorem pool_liveness {R : Type} [Fintype R] [DecidableEq R] (c : Clients R) {acts : List (Act c.load)} {s : c.load.St}
    (hrun : c.load.run c.load.init acts = some s) (hd : c.load.Directly c.load.init acts) {r : R} (ha : s.admitted r = true)
    (hr : (c.load.engine r).finished (s.runs r) = false) : Enabled s := by
  have h : Inv s := run_inv (init_inv c.load) hd hrun
  exact h.live ha hr

/-! ## A chain on a pool of two -/

open YouPipe.Stream

/-- two stages of one pinned worker each -/
def relay : StreamPipe ℕ (.items false false) ℕ where
  chain := .stage (.stage .start ⟨some 1, none⟩ id) ⟨some 1, none⟩ id
  ctx := ⟨4, fun _ => 1, fun _ => 4, fun _ => 4, 0, false, false, false, 1, 0⟩
  cancel := false
  computeWorkersPinned := false
  reorderWindow := none
  slotSize := Reorder.wordSlot
  exec := ⟨⟨none, none, .off⟩, .balanced, 1, false⟩

/-- the function of the first stage forks a job and joins it -/
def relayWork : (relay.setup 1).St → ℕ × ℕ → Work := fun _ x => if x = (1, 0) then .fork .done (.wait .done) else .done

/-- one item through the two stages, whose jobs are as many as the workers -/
def relayed : Clients Unit where
  requested := 2
  client := fun _ => .stream relay [7] relayWork
  need := fun _ => 2
  covers := fun _ => by decide

/-- the run reserves its two slots, the caller feeds the item and begins to spawn -/
def admittedActs : List (Act relayed.load) :=
  [.reserve (.ask () 2), .reserve (.load ()), .reserve (.test ()), .reserve (.exchange () false),
   .outside () (Setup.Step.net (.prev (.prev (.here 0 0 0)))), .outside () (Setup.Step.net (.prev (.prev (.here 0 0 0)))),
   .outside () (Setup.Step.net (.prev (.prev (.here 0 0 0)))), .outside () (Setup.Step.net (.prev (.prev (.here 0 0 0)))),
   .outside () Setup.Step.spawn]

/-- each worker starts one of the jobs; the first one claims the item, calls its function and forks -/
def sideBySideActs : List (Act relayed.load) :=
  [.post (), .post (), .find 0 .injected, .find 1 .injected, .turn 0 () (Setup.Step.net (.prev (.here 0 0 1))),
   .turn 0 () (Setup.Step.net (.prev (.here 0 0 1))), .work 0 false]

theorem Directly.cons {R : Type} [DecidableEq R] {c : Load R} {s s₁ : c.St} {a : Act c} {acts : List (Act c)} (hd : Direct s a)
    (hs : c.step s a = some s₁) (h : c.Directly s₁ acts) : c.Directly s (a :: acts) := by
  refine ⟨hd, fun s' hs' => ?_⟩
  rw [hs] at hs'
  cases hs'
  exact h

theorem pool_liveness_side_by_side : ∃ s, relayed.load.run relayed.load.init (admittedActs ++ sideBySideActs) = some s ∧
    (s.pool.worker 0).frames.length = 1 ∧ (s.pool.worker 1).frames.length = 1 ∧ s.admitted () = true ∧ Enabled s := by
  obtain ⟨s, hrun, hd, h0, h1, ha, hr⟩ : ∃ s, relayed.load.run relayed.load.init (admittedActs ++ sideBySideActs) = some s ∧
      relayed.load.Directly relayed.load.init (admittedActs ++ sideBySideActs) ∧ (s.pool.worker 0).frames.length = 1 ∧
      (s.pool.worker 1).frames.length = 1 ∧ s.admitted () = true ∧ (relayed.load.engine ()).finished (s.runs ()) = false := by
    refine ⟨_, rfl, ?_, rfl, rfl, rfl, rfl⟩
    iterate 11 refine .cons trivial rfl ?_
    iterate 2 refine .cons (fun _ _ _ hf => absurd rfl hf) rfl ?_
    iterate 3 refine .cons trivial rfl ?_
    exact trivial
  exact ⟨s, hrun, h0, h1, ha, pool_liveness relayed hrun hd ha hr⟩

/-! ## A stuck pool -/

/-- the first job is started, claims, calls its function and forks; the other worker steals the fork; only now the second job is
posted, and the first worker starts it while it waits; then the fork finishes and the collector parks -/
def stackedActs : List (Act relayed.load) :=
  [.post (), .find 0 .injected, .turn 0 () (Setup.Step.net (.prev (.here 0 0 1))),
   .turn 0 () (Setup.Step.net (.prev (.here 0 0 1))), .work 0 false, .find 1 (.peer 0), .post (), .find 0 .injected, .work 1 false,
   .outside () (Setup.Step.recv 0)]

section Waits

variable {I A B P : Type}

/-- a worker at its claim waits on an open empty ring -/
theorem idle_waits {prev : Net I A} {cfg : LinkCfg} {g : A → List B} {env : Env} {p : prev.St} {l : LinkSt A B} {w r k : ℕ}
    {mapped : List (Msg B)} (hw : l.workers w = .idle mapped) (hq : prev.rings p r = []) (ho : prev.isOpen p r = true) :
    (Net.link prev cfg g).step env (p, l) (.here w r k) = none := by
  refine Option.eq_none_iff_forall_ne_some.2 fun n hn => ?_
  obtain ⟨-, -, hr, y, e, hy, -⟩ := step_here hn
  have hend : prev.ended p = false := by
    rw [← Bool.not_eq_true, ended_iff, closed_iff]
    intro h
    rw [h.1 r hr] at ho
    cases ho
  rw [hw, hq, hend] at hy
  cases hy

/-- and so does the collector at its anchor -/
theorem anchor_waits {v : View (Msg P)} {batchCap m : ℕ} (hq : v.queue 0 = []) (ho : v.isOpen 0 = true) :
    Single.step batchCap .anchor v m = none := by
  simp [Single.step, Drain.recvStep, Single.load, hq, ho]

end Waits

section Stuck

variable {s : relayed.load.St} {first second : LinkSt ℕ ℕ} {sink : Except Reorder.Fault (Reorder.ReorderBuffer ℕ × List ℕ)}

def stageCfg : LinkCfg := ⟨1, 1, 4, 0, some 0, false⟩

def upstream : Net ℕ ℕ := .link (.feed ⟨4, 0⟩) stageCfg fun x => [id x]

/-- the topology of the chain -/
def relayNet : Net ℕ ℕ := .link upstream stageCfg fun x => [id x]

/-- the feeder is done, the first stage has an output to send, the second stage and the collector wait for input -/
def parked (first second : LinkSt ℕ ℕ) (sink : Except Reorder.Fault (Reorder.ReorderBuffer ℕ × List ℕ)) : (relay.setup 1).St :=
  ⟨((⟨.done, []⟩, first), second), false, true, Drain.Pc.anchor, sink, []⟩

/-- worker 0 has the second job on top of the first, worker 1 has none, the queues are empty -/
structure Stacked (s : relayed.load.St) (first second : LinkSt ℕ ℕ)
    (sink : Except Reorder.Fault (Reorder.ReorderBuffer ℕ × List ℕ)) : Prop where
  frames : ∃ below, (s.pool.worker 0).frames = [⟨2, none⟩, below]
  idle : (s.pool.worker 1).frames = []
  deques : ∀ i < 2, (s.pool.worker i).deque = []
  injector : s.pool.injector = []
  kind : s.kind 2 = .park () 1
  code : s.code 2 = .done
  posted : (s.lease.runs ()).jobs.length = 2
  runs : s.runs () = parked first second sink
  sends : first.workers 0 = .flush [(0, 7)] [] false
  empty : first.rings 0 = [] ∧ second.rings 0 = []
  waits : second.workers 0 = .idle []

/-- nobody but the first stage can move -/
theorem relayNet_waits (hj : (first.workers 0).isExited = false) (he : first.rings 0 = []) (hw : second.workers 0 = .idle []) (env : Env)
    {a : Stream.Act} (ha : relayNet.actor a ≠ (1, 0)) :
    relayNet.step env ((⟨.done, []⟩, first), second) a = none := by
  refine Option.eq_none_iff_forall_ne_some.2 fun n hn => ?_
  cases a with
  | here w r k =>
    obtain ⟨-, hw1, hr1, -⟩ := step_here hn
    obtain rfl : w = 0 := Nat.lt_one_iff.1 hw1
    obtain rfl : r = 0 := Nat.lt_one_iff.1 hr1
    have hopen : (List.range 1).any (fun w => w % 1 == 0 && !(first.workers w).isExited) = true := by simp [hj]
    have hnone := @idle_waits _ _ _ upstream stageCfg (fun x => [id x]) env (⟨.done, []⟩, first) second 0 0 k [] hw he hopen
    cases hnone.symm.trans hn
  | prev a =>
    obtain ⟨p, hp, -⟩ := step_prev hn
    cases a with
    | here w r k =>
      obtain ⟨-, hw1, -⟩ := step_here hp
      obtain rfl : w = 0 := Nat.lt_one_iff.1 hw1
      exact ha rfl
    | prev a =>
      obtain ⟨p, hp, -⟩ := step_prev hp
      cases a with
      | here w r k => cases hp
      | prev a => cases hp

/-- every move of the run is one of the first stage, or the token's -/
theorem Stacked.blocked (h : Stacked s first second sink) {m : Setup.Step} (ho : (relay.setup 1).owner (relay.parking 1) m ≠ .token)
    (hm : (relay.setup 1).owner (relay.parking 1) m ≠ .job 0) : (relay.setup 1).step [7] (s.runs ()) m = none := by
  rw [h.runs]
  cases m with
  | cancel => exact absurd rfl ho
  | spawn => rfl
  | recv k =>
    have hopen : (List.range 1).any (fun w => w % 1 == 0 && !(second.workers w).isExited) = true := by simp [h.waits, Worker.isExited]
    have hnone := @anchor_waits ℕ (relayNet.view ((⟨.done, []⟩, first), second)) 0 k h.empty.2 hopen
    show Option.map _ (Single.step 0 .anchor (relayNet.view ((⟨.done, []⟩, first), second)) k) = none
    rw [hnone]
    rfl
  | net a =>
    have ha : relayNet.actor a ≠ (1, 0) := by
      intro ha
      refine hm ?_
      have hnet : (relay.setup 1).net.actor a = (1, 0) := ha
      simp only [Setup.owner, hnet]
      rfl
    have hnone := relayNet_waits (by rw [h.sends]; rfl) h.empty.1 h.waits ⟨false, true, true⟩ ha
    show Option.map _ (relayNet.step ⟨false, true, true⟩ ((⟨.done, []⟩, first), second) a) = none
    rw [hnone]
    rfl

theorem Stacked.stuck (h : Stacked s first second sink) : ¬ Enabled s := by
  rintro ⟨a, s', ha, hs⟩
  cases a with
  | reserve | drop | token | submit => cases ha
  | post r =>
    have hlen : ¬ (s.lease.runs r).jobs.length < (relayed.load.engine r).jobs := by
      show ¬ (s.lease.runs ()).jobs.length < 2
      rw [h.posted]
      exact lt_irrefl 2
    rw [step, if_neg hlen] at hs
    cases hs
  | outside r m =>
    simp only [step, St.away] at hs
    split_ifs at hs with hadm
    have hown : (relay.setup 1).owner (relay.parking 1) m = .outside := hadm.2
    have hnone : (relayed.load.engine r).step (s.runs r) m = none := h.blocked (by rw [hown]; simp) (by rw [hown]; simp)
    rw [hnone] at hs
    cases hs
  | find i src =>
    simp only [step] at hs
    split_ifs at hs with hi
    obtain ⟨hi, hsearch⟩ := hi
    have hi : i < 2 := hi
    interval_cases i
    · obtain ⟨below, hf⟩ := h.frames
      simp [St.searching, hf, h.code] at hsearch
    · have htake : s.take 1 src = none := by
        cases src with
        | own => simp [St.take, Jobs.St.popLocal, h.deques]
        | injected => simp [St.take, h.deques, Jobs.St.popInjected, h.injector]
        | peer v =>
          simp only [St.take]
          split_ifs with hv
          · have hv2 : v < 2 := hv.2.1
            simp [Jobs.St.stealFrom, h.deques v hv2]
          · rfl
      rw [htake] at hs
      cases hs
  | work i busy =>
    simp only [step] at hs
    split_ifs at hs with hi
    have hi : i < 2 := hi
    interval_cases i
    · obtain ⟨below, hf⟩ := h.frames
      have hexit : (relayed.load.engine ()).exited (s.runs ()) 1 = false := by
        rw [h.runs]
        show (second.workers 0).isExited = false
        rw [h.waits]
        rfl
      simp [St.work, hf, h.code, h.kind, hexit] at hs
    · simp [St.work, h.idle] at hs
  | turn i r m =>
    simp only [step] at hs
    split_ifs at hs with hi
    have hi : i < 2 := hi
    interval_cases i
    · obtain ⟨below, hf⟩ := h.frames
      simp only [St.turn, hf, h.code, h.kind] at hs
      split_ifs at hs with hm
      have hown : (relay.setup 1).owner (relay.parking 1) m = .job 1 := hm.2
      have hnone : (relayed.load.engine r).step (s.runs r) m = none := h.blocked (by rw [hown]; simp) (by rw [hown]; simp)
      rw [hnone] at hs
      cases hs
    · simp [St.turn, h.idle] at hs

end Stuck

theorem stacked : ∃ s first second sink, relayed.load.run relayed.load.init (admittedActs ++ stackedActs) = some s ∧
    Stacked s first second sink ∧ s.admitted () = true ∧ (relayed.load.engine ()).finished (s.runs ()) = false := by
  refine ⟨_, _, _, _, rfl, ⟨⟨_, rfl⟩, rfl, fun i hi => ?_, rfl, rfl, rfl, rfl, rfl, rfl, ⟨rfl, rfl⟩, rfl⟩, rfl, rfl⟩
  interval_cases i
  · rfl
  · rfl

/-- **a stuck pool**: the second job of the chain waits for the first, which is below it on the same stack -/
theorem nested_stuck : ∃ s, relayed.load.run relayed.load.init (admittedActs ++ stackedActs) = some s ∧ s.admitted () = true ∧
    (relayed.load.engine ()).finished (s.runs ()) = false ∧ ¬ Enabled s := by
  obtain ⟨s, first, second, sink, hrun, h, ha, hr⟩ := stacked
  exact ⟨s, hrun, ha, hr, h.stuck⟩

end Load

end YouPipe.Nested
