/-
The graph plan and its validation (`graph/plan.rs`): the node and edge tables, `validate_and_order` with its error texts, and
the topological sort inside it.

A node's closure stands in its kind; one item type `T` stands for the items of every edge. Edges name registered nodes: the
builder only mints handles of its own nodes.

Results: `validateAndOrder_ok` (what an accepted plan and the returned order satisfy) from the invariant `Kahn.Inv` of the
sort, and `GraphPlan.kahn_inv` (the sort has always emptied its queue).
-/
import Mathlib.Tactic
import YouPipe.Core.Acyclic

namespace YouPipe.Graph

open YouPipe.Acyclic

/-! ## The tables -/

/-- node classification, with the closure of the node's spawn step -/
inductive NodeKind (T : Type) where
  | source
  | sourceAsync
  | sync (f : T → T)
  | expand (f : T → List T)
  | async (f : T → T)
  | sink

namespace NodeKind

variable {T : Type}

def isSource : NodeKind T → Bool
  | .source => true
  | .sourceAsync => true
  | _ => false

def isAsync : NodeKind T → Bool
  | .sourceAsync => true
  | .async _ => true
  | _ => false

def isSink : NodeKind T → Bool
  | .sink => true
  | _ => false

end NodeKind

/-- `move` producers have one outgoing edge; `broadcast` producers clone to every open edge -/
inductive Fanout where
  | move
  | broadcast
deriving DecidableEq, Repr

structure NodePlan (T : Type) where
  name : String
  kind : NodeKind T
  fanout : Fanout

structure EdgePlan where
  up : ℕ
  down : ℕ
deriving DecidableEq, Repr

structure GraphPlan (T : Type) where
  nodes : List (NodePlan T)
  edges : List EdgePlan
  bound : ∀ e ∈ edges, e.up < nodes.length ∧ e.down < nodes.length

/-- the members a `HashSet` refuses when the list is inserted in order -/
def refused {A : Type} [DecidableEq A] (seen : List A) : List A → List A
  | [] => []
  | x :: xs => if x ∈ seen then x :: refused seen xs else refused (x :: seen) xs

/-! ## The sort -/

/-- the state of the sort: open in-degrees, FIFO queue, order so far -/
structure Kahn where
  deg : ℕ → ℕ
  queue : List ℕ
  order : List ℕ

namespace Kahn

/-- one outgoing edge of the popped node -/
def visit (k : Kahn) (down : ℕ) : Kahn :=
  { k with
    deg := Function.update k.deg down (k.deg down - 1)
    queue := if k.deg down - 1 = 0 then k.queue ++ [down] else k.queue }

def pop (adjacency : ℕ → List ℕ) (k : Kahn) : Option Kahn :=
  match k.queue with
  | [] => none
  | u :: queue => some ((adjacency u).foldl visit ⟨k.deg, queue, k.order ++ [u]⟩)

def loop (adjacency : ℕ → List ℕ) : ℕ → Kahn → Kahn
  | 0, k => k
  | fuel + 1, k =>
    match k.pop adjacency with
    | none => k
    | some k' => loop adjacency fuel k'

end Kahn

namespace GraphPlan

variable {T : Type}

def name (p : GraphPlan T) (u : ℕ) : String := (p.nodes[u]?.map NodePlan.name).getD ""

def kind (p : GraphPlan T) (u : ℕ) : NodeKind T := (p.nodes[u]?.map NodePlan.kind).getD .sink

def fanout (p : GraphPlan T) (u : ℕ) : Fanout := (p.nodes[u]?.map NodePlan.fanout).getD .move

def inDeg (p : GraphPlan T) (u : ℕ) : ℕ := p.edges.countP fun e => e.down = u

def outDeg (p : GraphPlan T) (u : ℕ) : ℕ := p.edges.countP fun e => e.up = u

def adjacency (p : GraphPlan T) (u : ℕ) : List ℕ := (p.edges.filter fun e => e.up = u).map EdgePlan.down

def nameErrors (p : GraphPlan T) : List String :=
  (refused [] (p.nodes.map NodePlan.name)).map fun name => "duplicate node name `" ++ name ++ "`"

def edgeErrors (p : GraphPlan T) : List String :=
  (refused [] p.edges).map fun e => "duplicate edge `" ++ p.name e.up ++ "->" ++ p.name e.down ++ "`"

def nodeErrors (p : GraphPlan T) (i : ℕ) : List String :=
  (if (p.kind i).isSource then
    if 0 < p.inDeg i then ["source `" ++ p.name i ++ "` must not have incoming edges"] else []
  else if p.inDeg i = 0 then ["node `" ++ p.name i ++ "` requires at least one incoming edge"] else []) ++
  (if (p.kind i).isSink ∧ 0 < p.outDeg i then ["sink `" ++ p.name i ++ "` must not have outgoing edges"] else []) ++
  -- a producer with no consumer would truncate the whole upstream run
  (if ¬ (p.kind i).isSink ∧ p.outDeg i = 0 then
    ["node `" ++ p.name i ++ "` requires at least one outgoing edge (unconsumed output truncates the upstream run)"]
  else []) ++
  (if p.fanout i = .move ∧ 1 < p.outDeg i then
    ["move-only node `" ++ p.name i ++ "` must not have " ++ toString (p.outDeg i) ++
      " outgoing edges; use a `_broadcast` registration to fan out"]
  else [])

/-- the sort, seeded with the nodes of in-degree zero in registration order -/
def kahn (p : GraphPlan T) : Kahn :=
  Kahn.loop p.adjacency p.nodes.length ⟨p.inDeg, (List.range p.nodes.length).filter fun i => p.inDeg i = 0, []⟩

def cycleErrors (p : GraphPlan T) : List String :=
  if p.kahn.order.length < p.nodes.length then
    ["cycle detected involving: " ++
      ", ".intercalate (((List.range p.nodes.length).filter fun i => 0 < p.kahn.deg i).map p.name)]
  else []

/-- every violation at once, or the topological order -/
def validateAndOrder (p : GraphPlan T) : Except (List String) (List ℕ) :=
  let errors := p.nameErrors ++ p.edgeErrors ++ (List.range p.nodes.length).flatMap p.nodeErrors ++ p.cycleErrors
  if errors = [] then .ok p.kahn.order else .error errors

end GraphPlan

/-! ## What the sort keeps -/

/-- `u` has an edge to `v` -/
def Feeds (edges : List EdgePlan) (u v : ℕ) : Prop := ⟨u, v⟩ ∈ edges

/-- the edges into `v` from nodes not yet in the order -/
def openInto (edges : List EdgePlan) (order : List ℕ) (v : ℕ) : ℕ := edges.countP fun e => e.down = v ∧ e.up ∉ order

theorem feeds_of_openInto {edges : List EdgePlan} {order : List ℕ} {v : ℕ} (h : openInto edges order v = 0) :
    ∀ u, Feeds edges u v → u ∈ order := by
  intro u hu
  have hnot := List.countP_eq_zero.1 h _ hu
  simpa using hnot

theorem count_downs (edges : List EdgePlan) (u v : ℕ) :
    ((edges.filter fun e => e.up = u).map EdgePlan.down).count v = edges.countP fun e => e.down = v ∧ e.up = u := by
  rw [List.count, List.countP_map, List.countP_filter]
  apply List.countP_congr
  intro e _
  simp

/-- putting `u` into the order settles its edges -/
theorem openInto_snoc {edges : List EdgePlan} {order : List ℕ} {u : ℕ} (hu : u ∉ order) (v : ℕ) :
    openInto edges order v =
      openInto edges (order ++ [u]) v + ((edges.filter fun e => e.up = u).map EdgePlan.down).count v := by
  rw [count_downs]
  simp only [openInto]
  induction edges with
  | nil => rfl
  | cons e es ih =>
    have hsplit : (if e.down = v ∧ e.up ∉ order then 1 else 0) =
        (if e.down = v ∧ e.up ∉ order ++ [u] then 1 else 0) + if e.down = v ∧ e.up = u then 1 else 0 := by
      by_cases hup : e.up = u
      · simp [hup, hu]
      · simp [hup]
    simp only [List.countP_cons, decide_eq_true_eq, hsplit]
    omega

/-- a list of different numbers below `n` has at most `n` members -/
theorem length_le_of_nodup {l : List ℕ} {n : ℕ} (hnd : l.Nodup) (hl : ∀ u ∈ l, u < n) : l.length ≤ n := by
  have hsub : l.toFinset ⊆ Finset.range n := by
    intro v hv
    exact Finset.mem_range.2 (hl v (List.mem_toFinset.1 hv))
  have hcard := Finset.card_le_card hsub
  rwa [List.toFinset_card_of_nodup hnd, Finset.card_range] at hcard

namespace Kahn

/-- the sort at work: `todo` are the edges of the last popped node still to visit -/
structure Inv (edges : List EdgePlan) (n : ℕ) (k : Kahn) (todo : List ℕ) : Prop where
  deg : ∀ v, k.deg v = openInto edges k.order v + todo.count v
  settled : ∀ v ∈ k.order ++ k.queue, k.deg v = 0
  nodup : (k.order ++ k.queue).Nodup
  bound : ∀ v ∈ k.order ++ k.queue, v < n
  sorted : Topological (Feeds edges) k.order

variable {edges : List EdgePlan} {n : ℕ} {k : Kahn}

theorem Inv.visit {d : ℕ} {todo : List ℕ} (h : Inv edges n k (d :: todo)) (hd : d < n) :
    Inv edges n (k.visit d) todo := by
  have hpos : k.deg d = openInto edges k.order d + (todo.count d + 1) := by rw [h.deg d, List.count_cons_self]
  have hnew : d ∉ k.order ++ k.queue := fun hmem => by
    have := h.settled d hmem
    omega
  refine ⟨fun v => ?_, fun v hv => ?_, ?_, fun v hv => ?_, h.sorted⟩
  · by_cases hv : v = d
    · subst hv
      simp only [Kahn.visit, Function.update_self]
      omega
    · simp only [Kahn.visit, Function.update_of_ne hv]
      rw [h.deg v, List.count_cons_of_ne (Ne.symm hv)]
  · by_cases hvd : v = d
    · subst hvd
      -- `v` was not listed before, so it was appended now
      simp only [Kahn.visit, Function.update_self]
      by_contra hne
      exact hnew (by simpa [Kahn.visit, hne] using hv)
    · simp only [Kahn.visit, Function.update_of_ne hvd]
      apply h.settled v
      simp only [Kahn.visit] at hv
      split_ifs at hv
      · simpa [hvd] using hv
      · exact hv
  · simp only [Kahn.visit]
    split_ifs
    · rw [← List.append_assoc]
      exact List.nodup_append.2 ⟨h.nodup, List.nodup_singleton d, fun a ha b hb => by
        rintro rfl
        exact hnew (List.mem_singleton.1 hb ▸ ha)⟩
    · exact h.nodup
  · simp only [Kahn.visit] at hv
    split_ifs at hv
    · rw [← List.append_assoc, List.mem_append, List.mem_singleton] at hv
      rcases hv with hv | rfl
      · exact h.bound v hv
      · exact hd
    · exact h.bound v hv

theorem Inv.visits {todo : List ℕ} (h : Inv edges n k todo) (htodo : ∀ d ∈ todo, d < n) :
    Inv edges n (todo.foldl Kahn.visit k) [] := by
  induction todo generalizing k with
  | nil => exact h
  | cons d todo ih =>
    apply ih (h.visit (htodo d (by simp)))
    intro d' hd'
    exact htodo d' (by simp [hd'])

theorem Inv.take {u : ℕ} {queue : List ℕ} (h : Inv edges n k []) (hq : k.queue = u :: queue) :
    Inv edges n ⟨k.deg, queue, k.order ++ [u]⟩ ((edges.filter fun e => e.up = u).map EdgePlan.down) := by
  have hlist : k.order ++ [u] ++ queue = k.order ++ k.queue := by rw [hq, List.append_assoc, List.singleton_append]
  have hu : u ∉ k.order := by
    intro hmem
    have hnd := h.nodup
    rw [hq, List.nodup_append] at hnd
    exact hnd.2.2 u hmem u (by simp) rfl
  have hzero : k.deg u = 0 := h.settled u (by simp [hq])
  refine ⟨fun v => ?_, fun v hv => h.settled v (hlist ▸ hv), ?_, fun v hv => h.bound v (hlist ▸ hv), ?_⟩
  · have hdeg := h.deg v
    rw [List.count_nil, Nat.add_zero, openInto_snoc hu v] at hdeg
    exact hdeg
  · show (k.order ++ [u] ++ queue).Nodup
    rw [hlist]
    exact h.nodup
  · apply h.sorted.snoc
    apply feeds_of_openInto
    have hdeg := h.deg u
    omega

theorem Inv.pop {adjacency : ℕ → List ℕ} (hadj : ∀ u, adjacency u = (edges.filter fun e => e.up = u).map EdgePlan.down)
    (hbound : ∀ e ∈ edges, e.down < n) (h : Inv edges n k []) {k' : Kahn} (hp : k.pop adjacency = some k') :
    Inv edges n k' [] ∧ k'.order.length = k.order.length + 1 := by
  simp only [Kahn.pop] at hp
  split at hp
  · cases hp
  · next u queue hq =>
    cases hp
    have horder : ∀ (l : List ℕ) (c : Kahn), (l.foldl Kahn.visit c).order = c.order := by
      intro l
      induction l with
      | nil => intro c; rfl
      | cons d l ih => intro c; exact ih (c.visit d)
    constructor
    · rw [hadj]
      apply (h.take hq).visits
      intro d hd
      obtain ⟨e, he, rfl⟩ := List.mem_map.1 hd
      exact hbound e (List.mem_filter.1 he).1
    · rw [horder]
      simp

theorem Inv.length_le {todo : List ℕ} (h : Inv edges n k todo) : (k.order ++ k.queue).length ≤ n :=
  length_le_of_nodup h.nodup h.bound

/-- with fuel for every node the loop ends on an empty queue -/
theorem Inv.loop {adjacency : ℕ → List ℕ} (hadj : ∀ u, adjacency u = (edges.filter fun e => e.up = u).map EdgePlan.down)
    (hbound : ∀ e ∈ edges, e.down < n) (fuel : ℕ) (h : Inv edges n k []) (hfuel : n ≤ k.order.length + fuel) :
    Inv edges n (Kahn.loop adjacency fuel k) [] ∧ (Kahn.loop adjacency fuel k).queue = [] := by
  induction fuel generalizing k with
  | zero =>
    refine ⟨h, ?_⟩
    have hlen := h.length_le
    rw [List.length_append] at hlen
    exact List.length_eq_zero_iff.1 (by simp only [Kahn.loop]; omega)
  | succ fuel ih =>
    simp only [Kahn.loop]
    cases hp : k.pop adjacency with
    | none =>
      refine ⟨h, ?_⟩
      simp only [Kahn.pop] at hp
      split at hp
      · assumption
      · cases hp
    | some k' =>
      obtain ⟨h', hlen⟩ := h.pop hadj hbound hp
      exact ih h' (by omega)

end Kahn

/-! ## Accepted plans -/

theorem nodup_of_refused {A : Type} [DecidableEq A] (l seen : List A) (h : refused seen l = []) :
    l.Nodup ∧ ∀ x ∈ l, x ∉ seen := by
  induction l generalizing seen with
  | nil => simp
  | cons x xs ih =>
    simp only [refused] at h
    split_ifs at h with hx
    obtain ⟨hnd, hfresh⟩ := ih (x :: seen) h
    refine ⟨List.nodup_cons.2 ⟨fun hmem => hfresh x hmem (by simp), hnd⟩, ?_⟩
    intro y hy
    rcases List.mem_cons.1 hy with rfl | hy
    · exact hx
    · exact fun hseen => hfresh y hy (List.mem_cons_of_mem x hseen)

/-- what an accepted plan satisfies, with the order it is walked in -/
structure Accepted {T : Type} (p : GraphPlan T) (order : List ℕ) : Prop where
  cover : ∀ u, u ∈ order ↔ u < p.nodes.length
  nodup : order.Nodup
  sorted : Topological (Feeds p.edges) order
  edges : p.edges.Nodup
  source : ∀ e ∈ p.edges, (p.kind e.down).isSource = false
  sink : ∀ e ∈ p.edges, (p.kind e.up).isSink = false
  fed : ∀ u < p.nodes.length, (p.kind u).isSource = false → ∃ e ∈ p.edges, e.down = u
  consumed : ∀ u < p.nodes.length, (p.kind u).isSink = false → ∃ e ∈ p.edges, e.up = u
  move : ∀ u < p.nodes.length, p.fanout u = .move → p.outDeg u ≤ 1

/-- the order lists every node once -/
theorem Accepted.perm {T : Type} {p : GraphPlan T} {order : List ℕ} (h : Accepted p order) :
    order.Perm (List.range p.nodes.length) := by
  refine (List.perm_ext_iff_of_nodup h.nodup List.nodup_range).2 ?_
  intro u
  rw [h.cover, List.mem_range]

theorem Accepted.length_le {T : Type} {p : GraphPlan T} {order : List ℕ} (h : Accepted p order) :
    order.length ≤ p.nodes.length :=
  length_le_of_nodup h.nodup fun u hu => (h.cover u).1 hu

namespace GraphPlan

variable {T : Type} {p : GraphPlan T}

theorem kahn_inv (p : GraphPlan T) : p.kahn.Inv p.edges p.nodes.length [] ∧ p.kahn.queue = [] := by
  apply Kahn.Inv.loop (fun _ => rfl) (fun e he => (p.bound e he).2) _ _ (by simp)
  refine ⟨fun v => by simp [openInto, inDeg], fun v hv => ?_, ?_, fun v hv => ?_, Topological.nil⟩
  · simpa using (List.mem_filter.1 hv).2
  · exact List.nodup_range.filter _
  · exact List.mem_range.1 (List.mem_filter.1 hv).1

theorem cover_of_length (h : p.nodes.length ≤ p.kahn.order.length) (u : ℕ) :
    u ∈ p.kahn.order ↔ u < p.nodes.length := by
  obtain ⟨hinv, hq⟩ := p.kahn_inv
  have hnd := hinv.nodup
  have hbound := hinv.bound
  rw [hq, List.append_nil] at hnd hbound
  refine ⟨hbound u, fun hu => ?_⟩
  have hsub : p.kahn.order.toFinset ⊆ Finset.range p.nodes.length := by
    intro v hv
    exact Finset.mem_range.2 (hbound v (List.mem_toFinset.1 hv))
  have heq := Finset.eq_of_subset_of_card_le hsub (by rw [List.toFinset_card_of_nodup hnd, Finset.card_range]; exact h)
  exact List.mem_toFinset.1 (heq ▸ Finset.mem_range.2 hu)

/-- the checks of one node, read off its empty error list -/
theorem nodeErrors_nil {i : ℕ} (h : p.nodeErrors i = []) :
    ((p.kind i).isSource = true → p.inDeg i = 0) ∧ ((p.kind i).isSource = false → 0 < p.inDeg i) ∧
    ((p.kind i).isSink = true → p.outDeg i = 0) ∧ ((p.kind i).isSink = false → 0 < p.outDeg i) ∧
    (p.fanout i = .move → p.outDeg i ≤ 1) := by
  simp only [nodeErrors, List.append_eq_nil_iff] at h
  obtain ⟨⟨⟨hin, hsink⟩, hout⟩, hmove⟩ := h
  refine ⟨fun hs => ?_, fun hs => ?_, fun hs => ?_, fun hs => ?_, fun hf => ?_⟩
  · simpa [hs] using hin
  · simpa [hs, Nat.pos_iff_ne_zero] using hin
  · simpa [hs] using hsink
  · simpa [hs, Nat.pos_iff_ne_zero] using hout
  · simpa [hf] using hmove

/-- **an accepted plan**: the order is a topological one of all nodes, and every check passed -/
theorem validateAndOrder_ok {order : List ℕ} (h : p.validateAndOrder = .ok order) : Accepted p order := by
  simp only [validateAndOrder] at h
  split_ifs at h with herr
  cases h
  simp only [List.append_eq_nil_iff, List.flatMap_eq_nil_iff, List.mem_range] at herr
  obtain ⟨⟨⟨-, hedges⟩, hnodes⟩, hcycle⟩ := herr
  have hlen : p.nodes.length ≤ p.kahn.order.length := by
    by_contra hlt
    simp [cycleErrors, Nat.lt_of_not_le hlt] at hcycle
  obtain ⟨hinv, hq⟩ := p.kahn_inv
  refine ⟨cover_of_length hlen, ?_, hinv.sorted, ?_, fun e he => ?_, fun e he => ?_, fun u hu hs => ?_, fun u hu hs => ?_,
    fun u hu => (nodeErrors_nil (hnodes u hu)).2.2.2.2⟩
  · have hnd := hinv.nodup
    rwa [hq, List.append_nil] at hnd
  · exact (nodup_of_refused _ _ (List.map_eq_nil_iff.1 hedges)).1
  · by_contra hs
    have hzero := (nodeErrors_nil (hnodes _ (p.bound e he).2)).1 (by simpa using hs)
    exact List.countP_eq_zero.1 hzero e he (by simp)
  · by_contra hs
    have hzero := (nodeErrors_nil (hnodes _ (p.bound e he).1)).2.2.1 (by simpa using hs)
    exact List.countP_eq_zero.1 hzero e he (by simp)
  · obtain ⟨e, he, hd⟩ := List.countP_pos_iff.1 ((nodeErrors_nil (hnodes u hu)).2.1 hs)
    exact ⟨e, he, by simpa using hd⟩
  · obtain ⟨e, he, hd⟩ := List.countP_pos_iff.1 ((nodeErrors_nil (hnodes u hu)).2.2.2.1 hs)
    exact ⟨e, he, by simpa using hd⟩

end GraphPlan

end YouPipe.Graph
