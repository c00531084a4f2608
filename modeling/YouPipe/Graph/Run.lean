/-
A graph run (`graph/exec.rs`): the stations of a plan (its nodes, and a bridge on each edge from an async to a sync node), the
rings between them as the spawn walk connects them, and the interleaved steps of all workers.

The run starts with every worker spawned: a worker not yet spawned is one that has taken no step, and the walk holds the
handles it will get. A ring's senders and receivers are the workers that hold a handle on it.

Results: `network_valid` (the network of an accepted plan is acyclic and wired one to one) and `unicast_single` (a move
producer gets exactly one edge).
-/
import Mathlib.Tactic
import YouPipe.Core.Word
import YouPipe.Graph.Worker

namespace YouPipe.Graph

open YouPipe.Acyclic

/-! ## Networks -/

section Network

variable {S R T : Type}

/-- groups of workers that share their rings -/
structure Network (S R T : Type) where
  stations : List S
  spawn : S → Spawn R T
  workers : S → ℕ
  cap : R → ℕ

/-- a run's state; `sent`, `yielded` and `received` log what was pushed on a ring, yielded by a source and consumed by a
sink -/
structure St (S R T : Type) where
  worker : S × ℕ → Worker R T
  queue : R → List T
  sent : R → List T
  yielded : S → List T
  received : S → List T

/-- one step of one worker, with the choices of the channels and of the source's iterator -/
structure Act (S T : Type) where
  worker : S × ℕ
  pick : ℕ
  item : Option T
deriving DecidableEq, Repr

variable [DecidableEq S] [DecidableEq R]

instance lawful_ids : LawfulBEq (S × ℕ) := inferInstance

def St.apply (s : St S R T) (id : S × ℕ) (w : Worker R T) : Effect R T → St S R T
  | .silent => { s with worker := Function.update s.worker id w }
  | .take r m =>
    { s with
      worker := Function.update s.worker id w
      queue := Function.update s.queue r ((s.queue r).drop m) }
  | .push r xs =>
    { s with
      worker := Function.update s.worker id w
      queue := Function.update s.queue r (s.queue r ++ xs)
      sent := Function.update s.sent r (s.sent r ++ xs) }
  | .yield x =>
    { s with
      worker := Function.update s.worker id w
      yielded := Function.update s.yielded id.1 (s.yielded id.1 ++ [x]) }
  | .consume x =>
    { s with
      worker := Function.update s.worker id w
      received := Function.update s.received id.1 (s.received id.1 ++ [x]) }

namespace Network

variable (N : Network S R T)

def ids : List (S × ℕ) := N.stations.flatMap fun st => (List.range (N.workers st)).map fun k => (st, k)

def view (s : St S R T) : View R T where
  queue := s.queue
  cap := N.cap
  sender r := N.ids.any fun id => decide (r ∈ (s.worker id).txs)
  receiver r := N.ids.any fun id => decide (r ∈ (s.worker id).fanin.rxs)

def init : St S R T where
  worker id := if id ∈ N.ids then Worker.fresh (N.spawn id.1) else ⟨FanIn.new [], [], .done⟩
  queue _ := []
  sent _ := []
  yielded _ := []
  received _ := []

def step (s : St S R T) (a : Act S T) : Option (St S R T) :=
  ((s.worker a.worker).next (N.spawn a.worker.1) (N.view s) a.pick a.item).map fun (w, eff) => s.apply a.worker w eff

def run (s : St S R T) (acts : List (Act S T)) : Option (St S R T) := acts.foldlM N.step s

/-- the worker has no step, whatever the channels and its iterator do -/
def Blocked (s : St S R T) (id : S × ℕ) : Prop := ∀ pick item, N.step s ⟨id, pick, item⟩ = none

/-- every ring has one producer station and one consumer station, and ranks increase from the one to the other -/
structure Valid (rank : S → ℕ) : Prop where
  inputs_nodup : ∀ st ∈ N.stations, (N.spawn st).inputs.Nodup
  outputs_nodup : ∀ st ∈ N.stations, (N.spawn st).outputs.Nodup
  consumer : ∀ st ∈ N.stations, ∀ r ∈ (N.spawn st).outputs, ∃ st' ∈ N.stations, r ∈ (N.spawn st').inputs
  one_consumer : ∀ st ∈ N.stations, ∀ st' ∈ N.stations, ∀ r ∈ (N.spawn st).inputs, r ∈ (N.spawn st').inputs → st = st'
  one_producer : ∀ st ∈ N.stations, ∀ st' ∈ N.stations, ∀ r ∈ (N.spawn st).outputs, r ∈ (N.spawn st').outputs → st = st'
  rank_lt : ∀ st ∈ N.stations, ∀ st' ∈ N.stations, ∀ r ∈ (N.spawn st).outputs, r ∈ (N.spawn st').inputs → rank st < rank st'
  workers_pos : ∀ st ∈ N.stations, 0 < N.workers st
  cap_pos : ∀ r, 0 < N.cap r
  fits : ∀ st ∈ N.stations, Fits (N.spawn st)

omit [DecidableEq S] [DecidableEq R] in
theorem mem_ids {id : S × ℕ} : id ∈ N.ids ↔ id.1 ∈ N.stations ∧ id.2 < N.workers id.1 := by
  obtain ⟨st, k⟩ := id
  simp [ids]

end Network

end Network

/-! ## The network of a plan -/

/-- the ring an edge's producers push to, and the one its bridge pushes to -/
inductive Ring where
  | edge (e : EdgePlan)
  | bridged (e : EdgePlan)
deriving DecidableEq, Repr

inductive Station where
  | node (u : ℕ)
  | bridge (e : EdgePlan)
deriving DecidableEq, Repr

/-- the resolved counts and knobs of a run: workers (or tasks) of the map, expand and async nodes, ring capacities, claim
caps, `batch_recv_cap`, `graph_tx_batch` and whether the spin is on -/
structure Config where
  workers : ℕ → ℕ+
  buffer : EdgePlan → ℕ+
  claimCap : ℕ → ℕ
  batchRecvCap : ℕ
  txBatch : Bool
  spin : Bool

/-- `GraphCore::claim_cap` -/
def claimCap (batchRecvCap workers : ℕ) : ℕ := if batchRecvCap = 0 then 0 else max (batchRecvCap / max workers 1) 1

namespace GraphPlan

variable {T : Type} (p : GraphPlan T) (order : List ℕ) (cfg : Config)

/-- an async upstream feeding a sync downstream goes through a bridge thread -/
def isBridged (e : EdgePlan) : Bool := (p.kind e.up).isAsync && !(p.kind e.down).isAsync

/-- the ring the edge's consumers read -/
def downRing (e : EdgePlan) : Ring := if p.isBridged e then .bridged e else .edge e

def outEdges (u : ℕ) : List EdgePlan := p.edges.filter fun e => e.up = u

/-- the walk visits the nodes in order and appends each out-edge's receiver to its target's inputs -/
def inEdges (u : ℕ) : List EdgePlan := order.flatMap fun v => (p.outEdges v).filter fun e => e.down = u

def body (u : ℕ) : Body T :=
  match p.kind u with
  | .source => .source (if cfg.txBatch then cfg.batchRecvCap else 0)
  | .sourceAsync => .source 0
  | .sync f => .node (cfg.txBatch && decide (0 < cfg.claimCap u)) f
  | .expand f =>
    .expand (cfg.txBatch && decide (0 < cfg.claimCap u)) (max (max cfg.batchRecvCap (cfg.claimCap u)) 1) f
  | .async f => .node false f
  | .sink => .sink

/-- async tasks claim one item at a time and do not spin -/
def nodeSpawn (u : ℕ) : Spawn Ring T where
  inputs := (p.inEdges order u).map p.downRing
  outputs := (p.outEdges u).map .edge
  fanout := p.fanout u
  body := p.body cfg u
  claimCap := if (p.kind u).isAsync then 0 else cfg.claimCap u
  spin := cfg.spin && !(p.kind u).isAsync

def nodeWorkers (u : ℕ) : ℕ :=
  match p.kind u with
  | .sync _ => cfg.workers u
  | .expand _ => cfg.workers u
  | .async _ => cfg.workers u
  | _ => 1

def network : Network Station Ring T where
  stations := order.map .node ++ (p.edges.filter p.isBridged).map .bridge
  spawn
    | .node u => p.nodeSpawn order cfg u
    | .bridge e => ⟨[.edge e], [.bridged e], .move, .bridge, 0, false⟩
  workers
    | .node u => p.nodeWorkers cfg u
    | .bridge _ => 1
  cap
    | .edge e => cfg.buffer e
    | .bridged e => cfg.buffer e

/-- a bridge stands between its edge's two nodes -/
def rank : Station → ℕ
  | .node u => 2 * order.idxOf u
  | .bridge e => 2 * order.idxOf e.up + 1

end GraphPlan

/-! ## The network is valid -/

section Valid

variable {T : Type} {p : GraphPlan T} {order : List ℕ} {cfg : Config}

theorem mem_stations_node {u : ℕ} : Station.node u ∈ (p.network order cfg).stations ↔ u ∈ order := by
  simp [GraphPlan.network]

theorem mem_stations_bridge {e : EdgePlan} :
    Station.bridge e ∈ (p.network order cfg).stations ↔ e ∈ p.edges ∧ p.isBridged e = true := by
  simp [GraphPlan.network]

theorem mem_inEdges (h : Accepted p order) {u : ℕ} {e : EdgePlan} :
    e ∈ p.inEdges order u ↔ e ∈ p.edges ∧ e.down = u := by
  simp only [GraphPlan.inEdges, GraphPlan.outEdges, List.mem_flatMap, List.mem_filter, decide_eq_true_eq]
  constructor
  · rintro ⟨v, -, ⟨he, -⟩, hd⟩
    exact ⟨he, hd⟩
  · rintro ⟨he, hd⟩
    exact ⟨e.up, (h.cover e.up).2 (p.bound e he).1, ⟨he, rfl⟩, hd⟩

theorem inEdges_nodup (h : Accepted p order) (u : ℕ) : (p.inEdges order u).Nodup := by
  rw [GraphPlan.inEdges, List.nodup_flatMap]
  refine ⟨fun v _ => (h.edges.filter _).filter _, h.nodup.imp fun {a b} hab e ha hb => hab ?_⟩
  simp only [GraphPlan.outEdges, List.mem_filter, decide_eq_true_eq] at ha hb
  exact ha.1.2.symm.trans hb.1.2

theorem mem_outEdges {u : ℕ} {e : EdgePlan} : e ∈ p.outEdges u ↔ e ∈ p.edges ∧ e.up = u := by
  simp [GraphPlan.outEdges]

theorem downRing_injective : Function.Injective p.downRing := by
  intro e e' h
  simp only [GraphPlan.downRing] at h
  split_ifs at h <;> simpa using h

/-- a ring of the network with its producer and consumer -/
theorem edge_mem_outputs {e : EdgePlan} {st : Station} :
    Ring.edge e ∈ ((p.network order cfg).spawn st).outputs ↔ e ∈ p.edges ∧ st = .node e.up := by
  cases st with
  | node u =>
    simp only [GraphPlan.network, GraphPlan.nodeSpawn, List.mem_map, mem_outEdges, Ring.edge.injEq, exists_eq_right,
      Station.node.injEq]
    exact and_congr_right fun _ => eq_comm
  | bridge b => simp [GraphPlan.network]

theorem bridged_mem_outputs {e : EdgePlan} {st : Station} :
    Ring.bridged e ∈ ((p.network order cfg).spawn st).outputs ↔ st = .bridge e := by
  cases st with
  | node u => simp [GraphPlan.network, GraphPlan.nodeSpawn]
  | bridge b =>
    simp only [GraphPlan.network, List.mem_singleton, Ring.bridged.injEq, Station.bridge.injEq]
    exact eq_comm

theorem edge_mem_inputs (h : Accepted p order) {e : EdgePlan} {st : Station} :
    Ring.edge e ∈ ((p.network order cfg).spawn st).inputs ↔
      (e ∈ p.edges ∧ p.isBridged e = false ∧ st = .node e.down) ∨ st = .bridge e := by
  cases st with
  | node u =>
    simp only [GraphPlan.network, GraphPlan.nodeSpawn, List.mem_map, mem_inEdges h, GraphPlan.downRing]
    constructor
    · rintro ⟨e', ⟨he, rfl⟩, hr⟩
      split_ifs at hr with hb
      cases hr
      exact .inl ⟨he, Bool.eq_false_iff.2 hb, rfl⟩
    · rintro (⟨he, hb, hu⟩ | hu)
      · cases hu
        exact ⟨e, ⟨he, rfl⟩, by simp [hb]⟩
      · cases hu
  | bridge b =>
    simp only [GraphPlan.network, List.mem_singleton, Ring.edge.injEq, Station.bridge.injEq, reduceCtorEq, and_false, false_or]
    exact eq_comm

theorem bridged_mem_inputs (h : Accepted p order) {e : EdgePlan} {st : Station} :
    Ring.bridged e ∈ ((p.network order cfg).spawn st).inputs ↔
      e ∈ p.edges ∧ p.isBridged e = true ∧ st = .node e.down := by
  cases st with
  | node u =>
    simp only [GraphPlan.network, GraphPlan.nodeSpawn, List.mem_map, mem_inEdges h, GraphPlan.downRing]
    constructor
    · rintro ⟨e', ⟨he, rfl⟩, hr⟩
      split_ifs at hr with hb
      cases hr
      exact ⟨he, hb, rfl⟩
    · rintro ⟨he, hb, hu⟩
      cases hu
      exact ⟨e, ⟨he, rfl⟩, by simp [hb]⟩
  | bridge b => simp [GraphPlan.network]

theorem rank_edge_lt (h : Accepted p order) {e : EdgePlan} (he : e ∈ p.edges) : order.idxOf e.up < order.idxOf e.down :=
  h.sorted.idxOf_lt he ((h.cover e.down).2 (p.bound e he).2)

theorem body_isSource (u : ℕ) : (p.body cfg u).isSource = (p.kind u).isSource := by
  cases hk : p.kind u <;> simp [GraphPlan.body, hk, Body.isSource, NodeKind.isSource]

theorem body_isSink (u : ℕ) : (p.body cfg u).isSink = (p.kind u).isSink := by
  cases hk : p.kind u <;> simp [GraphPlan.body, hk, Body.isSink, NodeKind.isSink]

theorem node_fits (h : Accepted p order) {u : ℕ} (hu : u ∈ order) : Fits (p.nodeSpawn order cfg u) where
  source hs := by
    have hk : (p.kind u).isSource = true := (body_isSource u).symm.trans hs
    apply List.map_eq_nil_iff.2
    apply List.eq_nil_iff_forall_not_mem.2
    intro e hmem
    obtain ⟨he, rfl⟩ := (mem_inEdges h).1 hmem
    exact absurd hk (by simp [h.source e he])
  sink := by
    have hb : (p.nodeSpawn order cfg u).body.isSink = (p.kind u).isSink := body_isSink u
    have ho : (p.nodeSpawn order cfg u).outputs = [] ↔ p.outEdges u = [] := List.map_eq_nil_iff
    rw [hb, ho]
    constructor
    · intro hk
      apply List.eq_nil_iff_forall_not_mem.2
      intro e hmem
      obtain ⟨he, rfl⟩ := mem_outEdges.1 hmem
      exact absurd hk (by simp [h.sink e he])
    · intro hnil
      by_contra hk
      obtain ⟨e, he, hup⟩ := h.consumed u ((h.cover u).1 hu) (Bool.eq_false_iff.2 hk)
      have hmem : e ∈ p.outEdges u := mem_outEdges.2 ⟨he, hup⟩
      simp [hnil] at hmem
  bridge hb := by
    have hne : p.body cfg u ≠ .bridge := by cases hk : p.kind u <;> simp [GraphPlan.body, hk]
    exact absurd hb hne

/-- **the network of an accepted plan**: one producer and one consumer station for each ring, ranked by the walk's order -/
theorem network_valid (h : Accepted p order) : (p.network order cfg).Valid (GraphPlan.rank order) where
  inputs_nodup := by
    rintro (u | e) -
    · exact (inEdges_nodup h u).map downRing_injective
    · exact List.nodup_singleton _
  outputs_nodup := by
    rintro (u | e) -
    · exact (h.edges.filter _).map fun _ _ he => Ring.edge.inj he
    · exact List.nodup_singleton _
  consumer := by
    rintro st hst (e | e) hr
    · obtain ⟨he, -⟩ := edge_mem_outputs.1 hr
      cases hb : p.isBridged e with
      | false =>
        exact ⟨.node e.down, mem_stations_node.2 ((h.cover _).2 (p.bound e he).2),
          (edge_mem_inputs h).2 (.inl ⟨he, hb, rfl⟩)⟩
      | true => exact ⟨.bridge e, mem_stations_bridge.2 ⟨he, hb⟩, (edge_mem_inputs h).2 (.inr rfl)⟩
    · cases bridged_mem_outputs.1 hr
      obtain ⟨he, hb⟩ := mem_stations_bridge.1 hst
      exact ⟨.node e.down, mem_stations_node.2 ((h.cover _).2 (p.bound e he).2),
        (bridged_mem_inputs h).2 ⟨he, hb, rfl⟩⟩
  one_consumer := by
    rintro st hst st' hst' (e | e) hr hr'
    · rcases (edge_mem_inputs h).1 hr with ⟨-, hb, rfl⟩ | rfl <;>
        rcases (edge_mem_inputs h).1 hr' with ⟨-, hb', rfl⟩ | rfl
      · rfl
      · simp [(mem_stations_bridge.1 hst').2] at hb
      · simp [(mem_stations_bridge.1 hst).2] at hb'
      · rfl
    · rw [((bridged_mem_inputs h).1 hr).2.2, ((bridged_mem_inputs h).1 hr').2.2]
  one_producer := by
    rintro st - st' - (e | e) hr hr'
    · rw [(edge_mem_outputs.1 hr).2, (edge_mem_outputs.1 hr').2]
    · rw [bridged_mem_outputs.1 hr, bridged_mem_outputs.1 hr']
  rank_lt := by
    rintro st - st' - (e | e) hr hr'
    · obtain ⟨he, rfl⟩ := edge_mem_outputs.1 hr
      rcases (edge_mem_inputs h).1 hr' with ⟨-, -, rfl⟩ | rfl
      · have := rank_edge_lt h he
        simp only [GraphPlan.rank]
        omega
      · simp only [GraphPlan.rank]
        omega
    · cases bridged_mem_outputs.1 hr
      obtain ⟨he, -, rfl⟩ := (bridged_mem_inputs h).1 hr'
      have := rank_edge_lt h he
      simp only [GraphPlan.rank]
      omega
  workers_pos := by
    rintro (u | e) -
    · simp only [GraphPlan.network, GraphPlan.nodeWorkers]
      split
      all_goals first | exact (cfg.workers u).pos | exact Nat.one_pos
    · exact Nat.one_pos
  cap_pos := by
    rintro (e | e)
    · exact (cfg.buffer e).pos
    · exact (cfg.buffer e).pos
  fits := by
    rintro (u | e) hst
    · exact node_fits h (mem_stations_node.1 hst)
    · exact ⟨by simp [GraphPlan.network, Body.isSource], by simp [GraphPlan.network, Body.isSink], fun _ => le_refl 1⟩

/-- `Unicast::new` finds exactly one sender -/
theorem unicast_single (h : Accepted p order) {u : ℕ} (hu : u < p.nodes.length) (hm : p.fanout u = .move)
    (hs : (p.kind u).isSink = false) : (p.nodeSpawn order cfg u).outputs.length = 1 := by
  have hlen : (p.nodeSpawn order cfg u).outputs.length = p.outDeg u := by
    simp [GraphPlan.nodeSpawn, GraphPlan.outEdges, GraphPlan.outDeg, List.countP_eq_length_filter]
  have hle := h.move u hu hm
  obtain ⟨e, he, hup⟩ := h.consumed u hu hs
  have hpos : 0 < p.outDeg u := List.countP_pos_iff.2 ⟨e, he, by simpa using hup⟩
  omega

end Valid

end YouPipe.Graph
