/-
What graph validation accepts (`validate_and_order` in `graph/plan.rs`): exactly the well-formed acyclic plans, with a topological
order of all nodes; and whom a cycle error names.

`Graph.Plan` shows what an accepted plan satisfies. The other direction needs the sort to miss nobody: `Kahn.Full` says that a node
of open degree zero has been queued. At the end the queue is empty, so a node outside the order has an open edge from another such
node, and going back along open edges ends in a cycle.

Results: `kahn_deg_pos` (the degree a node is left with is positive exactly on or below a cycle) and `validation_exact`.
-/
import Mathlib.Tactic
import YouPipe.Graph.Plan

namespace YouPipe.Graph

open YouPipe.Acyclic

/-! ## The sort misses nobody -/

namespace Kahn

variable {edges : List EdgePlan} {n : ℕ} {k : Kahn}

/-- every node of open degree zero is in the order or queued -/
def Full (n : ℕ) (k : Kahn) : Prop := ∀ v < n, k.deg v = 0 → v ∈ k.order ++ k.queue

theorem Full.visit (h : Full n k) (d : ℕ) : Full n (k.visit d) := by
  intro v hv hdeg
  by_cases hvd : v = d
  · subst hvd
    simp only [Kahn.visit, Function.update_self] at hdeg
    simp [Kahn.visit, hdeg]
  · simp only [Kahn.visit, Function.update_of_ne hvd] at hdeg
    have hmem := h v hv hdeg
    simp only [Kahn.visit]
    split_ifs
    · rw [← List.append_assoc]
      exact List.mem_append_left _ hmem
    · exact hmem

theorem Full.visits (h : Full n k) (todo : List ℕ) : Full n (todo.foldl Kahn.visit k) := by
  induction todo generalizing k with
  | nil => exact h
  | cons d todo ih => exact ih (h.visit d)

theorem Full.pop {adjacency : ℕ → List ℕ} (h : Full n k) {k' : Kahn} (hp : k.pop adjacency = some k') : Full n k' := by
  simp only [Kahn.pop] at hp
  split at hp
  · cases hp
  · next u queue hq =>
    cases hp
    apply Full.visits
    intro v hv hdeg
    have hmem := h v hv hdeg
    rw [hq] at hmem
    simpa using hmem

theorem Full.loop {adjacency : ℕ → List ℕ} (h : Full n k) (fuel : ℕ) : Full n (Kahn.loop adjacency fuel k) := by
  induction fuel generalizing k with
  | zero => exact h
  | succ fuel ih =>
    simp only [Kahn.loop]
    cases hp : k.pop adjacency with
    | none => exact h
    | some k' => exact ih (h.pop hp)

end Kahn

/-! ## Cycles -/

namespace GraphPlan

variable {T : Type} (p : GraphPlan T)

/-- the nodes of positive degree are those outside the order -/
theorem kahn_deg_eq_zero {u : ℕ} (hu : u < p.nodes.length) : p.kahn.deg u = 0 ↔ u ∈ p.kahn.order := by
  obtain ⟨hinv, hq⟩ := p.kahn_inv
  have hfull : p.kahn.Full p.nodes.length := by
    apply Kahn.Full.loop
    intro v hv hdeg
    simpa using ⟨hv, hdeg⟩
  constructor
  · intro hdeg
    have hmem := hfull u hu hdeg
    rwa [hq, List.append_nil] at hmem
  · intro hmem
    exact hinv.settled u (List.mem_append_left _ hmem)

/-- a node outside the order has a predecessor outside the order -/
theorem exists_open_pred {v : ℕ} (hv : v < p.nodes.length) (hout : v ∉ p.kahn.order) :
    ∃ u, (u < p.nodes.length ∧ u ∉ p.kahn.order) ∧ Feeds p.edges u v := by
  obtain ⟨hinv, -⟩ := p.kahn_inv
  have hpos : 0 < openInto p.edges p.kahn.order v := by
    have hdeg := hinv.deg v
    rw [List.count_nil, Nat.add_zero] at hdeg
    rw [← hdeg, Nat.pos_iff_ne_zero]
    exact fun hzero => hout ((p.kahn_deg_eq_zero hv).1 hzero)
  obtain ⟨e, he, hopen⟩ := List.countP_pos_iff.1 hpos
  obtain ⟨rfl, hup⟩ := of_decide_eq_true hopen
  exact ⟨e.up, ⟨(p.bound e he).1, hup⟩, he⟩

/-- **whom the sort leaves over**: the nodes on a cycle or downstream of one -/
theorem kahn_deg_pos {u : ℕ} (hu : u < p.nodes.length) : 0 < p.kahn.deg u ↔ BelowCycle (Feeds p.edges) u := by
  obtain ⟨hinv, -⟩ := p.kahn_inv
  rw [Nat.pos_iff_ne_zero, Ne, p.kahn_deg_eq_zero hu]
  constructor
  · intro hout
    have hfin : {v | v < p.nodes.length ∧ v ∉ p.kahn.order}.Finite := (Set.finite_lt_nat _).subset fun v hv => hv.1
    exact belowCycle_of_pred hfin (fun v hv => p.exists_open_pred hv.1 hv.2) u ⟨hu, hout⟩
  · rintro ⟨w, hcycle, hdown⟩ hmem
    exact hinv.sorted.not_cyclic (hinv.sorted.mem_of_reaches hdown hmem) hcycle

/-! ## Well-formed plans -/

/-- names and edges are unique, there is no cycle, and every node has the edges its kind asks for -/
structure WellFormed : Prop where
  names : (p.nodes.map NodePlan.name).Nodup
  edges : p.edges.Nodup
  acyclic : ∀ u, ¬ Relation.TransGen (Feeds p.edges) u u
  source : ∀ u < p.nodes.length, (p.kind u).isSource = true → ∀ e ∈ p.edges, e.down ≠ u
  fed : ∀ u < p.nodes.length, (p.kind u).isSource = false → ∃ e ∈ p.edges, e.down = u
  sink : ∀ u < p.nodes.length, (p.kind u).isSink = true → ∀ e ∈ p.edges, e.up ≠ u
  consumed : ∀ u < p.nodes.length, (p.kind u).isSink = false → ∃ e ∈ p.edges, e.up = u
  move : ∀ u < p.nodes.length, p.fanout u = .move → p.outDeg u ≤ 1

variable {p}

theorem refused_nil {A : Type} [DecidableEq A] {l seen : List A} (hnd : l.Nodup) (hnew : ∀ x ∈ l, x ∉ seen) : refused seen l = [] := by
  induction l generalizing seen with
  | nil => rfl
  | cons x xs ih =>
    obtain ⟨hx, hnd⟩ := List.nodup_cons.1 hnd
    rw [refused, if_neg (hnew x List.mem_cons_self)]
    refine ih hnd fun y hy => ?_
    rw [List.mem_cons, not_or]
    exact ⟨fun he => hx (he ▸ hy), hnew y (List.mem_cons_of_mem x hy)⟩

theorem inDeg_eq_zero {u : ℕ} : p.inDeg u = 0 ↔ ∀ e ∈ p.edges, e.down ≠ u := by
  simp [inDeg, List.countP_eq_zero]

theorem outDeg_eq_zero {u : ℕ} : p.outDeg u = 0 ↔ ∀ e ∈ p.edges, e.up ≠ u := by
  simp [outDeg, List.countP_eq_zero]

theorem WellFormed.nodeErrors (h : p.WellFormed) {u : ℕ} (hu : u < p.nodes.length) : p.nodeErrors u = [] := by
  simp only [GraphPlan.nodeErrors, List.append_eq_nil_iff]
  refine ⟨⟨⟨?_, ?_⟩, ?_⟩, ?_⟩
  · cases hs : (p.kind u).isSource with
    | true => simp [inDeg_eq_zero.2 (h.source u hu hs)]
    | false =>
      obtain ⟨e, he, hd⟩ := h.fed u hu hs
      have hne : p.inDeg u ≠ 0 := fun hz => inDeg_eq_zero.1 hz e he hd
      simp [hne]
  · rw [if_neg]
    rintro ⟨hs, hpos⟩
    exact Nat.ne_of_gt hpos (outDeg_eq_zero.2 (h.sink u hu hs))
  · rw [if_neg]
    rintro ⟨hs, hz⟩
    obtain ⟨e, he, hup⟩ := h.consumed u hu (by simpa using hs)
    exact outDeg_eq_zero.1 hz e he hup
  · rw [if_neg]
    rintro ⟨hf, hlt⟩
    exact Nat.not_le.2 hlt (h.move u hu hf)

/-- the order is complete exactly when there is no cycle -/
theorem acyclic_iff : (∀ u, ¬ Relation.TransGen (Feeds p.edges) u u) ↔ p.nodes.length ≤ p.kahn.order.length := by
  obtain ⟨hinv, -⟩ := p.kahn_inv
  constructor
  · intro hac
    have hall : ∀ u ∈ List.range p.nodes.length, u ∈ p.kahn.order := by
      intro u hu
      have hu := List.mem_range.1 hu
      by_contra hout
      have hpos : 0 < p.kahn.deg u := Nat.pos_iff_ne_zero.2 fun hz => hout ((p.kahn_deg_eq_zero hu).1 hz)
      obtain ⟨w, hcycle, -⟩ := (p.kahn_deg_pos hu).1 hpos
      exact hac w hcycle
    have hle := (List.nodup_range.subperm hall).length_le
    rwa [List.length_range] at hle
  · intro hlen u hcycle
    -- a node on a cycle has an edge, so it is one of the plan's
    obtain ⟨v, hr, -⟩ := Relation.TransGen.head'_iff.1 hcycle
    exact hinv.sorted.not_cyclic ((cover_of_length hlen u).2 (p.bound _ hr).1) hcycle

theorem WellFormed.accepted (h : p.WellFormed) : p.validateAndOrder = .ok p.kahn.order := by
  have hnames : p.nameErrors = [] := by rw [nameErrors, refused_nil h.names (by simp), List.map_nil]
  have hedges : p.edgeErrors = [] := by rw [edgeErrors, refused_nil h.edges (by simp), List.map_nil]
  have hnodes : (List.range p.nodes.length).flatMap p.nodeErrors = [] :=
    List.flatMap_eq_nil_iff.2 fun u hu => h.nodeErrors (List.mem_range.1 hu)
  have hcycle : p.cycleErrors = [] := if_neg (Nat.not_lt.2 (acyclic_iff.1 h.acyclic))
  simp [validateAndOrder, hnames, hedges, hnodes, hcycle]

theorem wellFormed_of_ok {order : List ℕ} (h : p.validateAndOrder = .ok order) : p.WellFormed := by
  have hacc := validateAndOrder_ok h
  simp only [validateAndOrder] at h
  split_ifs at h with herr
  cases h
  simp only [List.append_eq_nil_iff] at herr
  obtain ⟨⟨⟨hnames, -⟩, -⟩, -⟩ := herr
  refine ⟨(nodup_of_refused _ _ (List.map_eq_nil_iff.1 hnames)).1, hacc.edges, fun u hcycle => ?_, fun u hu hs e he hd => ?_,
    hacc.fed, fun u hu hs e he hup => ?_, hacc.consumed, hacc.move⟩
  · obtain ⟨v, hr, -⟩ := Relation.TransGen.head'_iff.1 hcycle
    exact hacc.sorted.not_cyclic ((hacc.cover u).2 (p.bound _ hr).1) hcycle
  · have hnot := hacc.source e he
    rw [hd, hs] at hnot
    cases hnot
  · have hnot := hacc.sink e he
    rw [hup, hs] at hnot
    cases hnot

/-! ## Theorems -/

/-- the nodes a cycle error names, in registration order -/
def stuck (p : GraphPlan T) : List ℕ := (List.range p.nodes.length).filter fun i => 0 < p.kahn.deg i

theorem mem_stuck {u : ℕ} : u ∈ p.stuck ↔ u < p.nodes.length ∧ BelowCycle (Feeds p.edges) u := by
  rw [stuck, List.mem_filter, List.mem_range, decide_eq_true_eq]
  exact and_congr_right fun hu => p.kahn_deg_pos hu

/-- **Validation accepts exactly the well-formed acyclic plans.** The returned order is one of all nodes in which every edge goes
forward; a cycle error is reported exactly when there is a cycle, as the last error, and names exactly the nodes on or downstream
of a cycle. -/
theorem validation_exact (p : GraphPlan T) :
    ((∃ order, p.validateAndOrder = .ok order) ↔ p.WellFormed) ∧
    (∀ order, p.validateAndOrder = .ok order →
      order.Perm (List.range p.nodes.length) ∧ ∀ e ∈ p.edges, order.idxOf e.up < order.idxOf e.down) ∧
    (p.cycleErrors = [] ↔ ∀ u, ¬ Relation.TransGen (Feeds p.edges) u u) ∧
    (p.cycleErrors ≠ [] → ∃ (errors : List String) (stuck : List ℕ), p.validateAndOrder =
        .error (errors ++ ["cycle detected involving: " ++ ", ".intercalate (stuck.map p.name)]) ∧
      stuck.Sublist (List.range p.nodes.length) ∧
      ∀ u, u ∈ stuck ↔ u < p.nodes.length ∧ BelowCycle (Feeds p.edges) u) := by
  refine ⟨?_, fun order h => ?_, ?_, fun hne => ?_⟩
  · constructor
    · rintro ⟨order, h⟩
      exact wellFormed_of_ok h
    · intro h
      exact ⟨p.kahn.order, h.accepted⟩
  · have hacc := validateAndOrder_ok h
    refine ⟨(List.perm_ext_iff_of_nodup hacc.nodup List.nodup_range).2 fun u => ?_, fun e he => ?_⟩
    · rw [hacc.cover, List.mem_range]
    · exact hacc.sorted.idxOf_lt he ((hacc.cover _).2 (p.bound e he).2)
  · rw [acyclic_iff, cycleErrors]
    split_ifs with hlt
    · simpa using hlt
    · simpa using hlt
  · have hcycle : p.cycleErrors = ["cycle detected involving: " ++ ", ".intercalate (p.stuck.map p.name)] := by
      rw [cycleErrors] at hne ⊢
      split_ifs at hne ⊢ with hlt
      · rfl
      · exact absurd rfl hne
    refine ⟨p.nameErrors ++ p.edgeErrors ++ (List.range p.nodes.length).flatMap p.nodeErrors, p.stuck, ?_,
      List.filter_sublist, fun u => mem_stuck⟩
    simp [validateAndOrder, hcycle]

/-- a loop between two nodes, with a sink below it -/
def looped : GraphPlan ℕ where
  nodes := [⟨"src", .source, .move⟩, ⟨"inc", .sync (· + 1), .move⟩, ⟨"dup", .expand fun x => [x, x], .broadcast⟩, ⟨"out", .sink, .move⟩]
  edges := [⟨0, 1⟩, ⟨1, 2⟩, ⟨2, 1⟩, ⟨2, 3⟩]
  bound := by decide

example : looped.validateAndOrder = .error ["cycle detected involving: inc, dup, out"] := by rfl

end GraphPlan

end YouPipe.Graph
