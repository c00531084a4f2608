/-
What a graph run delivers: nothing is lost and nothing is duplicated.

Each station keeps a ledger per outgoing ring (for a sink: for what it consumes): what was emitted there, what its workers
still owe it, and what its input rings still hold, mapped, make up what has arrived, mapped. When every worker has exited
nothing is owed and every ring is empty, so the ledgers chain into the path semantics of the plan.

A source returns after its iterator has answered that there is nothing more, and never asks it again.

Results: `next_balanced` (one step of a worker), `Ledger.run` (whole runs), `run_source_end` (the end of a source) and
`graph_delivery`.
-/
import Mathlib.Tactic
import YouPipe.Core.Machine
import YouPipe.Core.Tally
import YouPipe.Graph.Progress

namespace YouPipe.Graph

open YouPipe.Tally

/-! ## What a worker owes -/

section Owes

variable {R T : Type} [DecidableEq R] {sp : Spawn R T} {v : View R T} {w w' : Worker R T} {eff : Effect R T}

/-- what a delivery still has to push on an edge: nothing on those before its place, everything on those after it -/
def Delivery.owed (outputs : List R) (d : Delivery T) (r : R) : List T :=
  if outputs.idxOf r < d.edge then [] else if outputs.idxOf r = d.edge then d.staged else d.batch

/-- where outputs go: an outgoing ring, or the sink's closure -/
def Target (sp : Spawn R T) : Option R → Prop
  | none => sp.body.isSink = true
  | some r => r ∈ sp.outputs

def owes (sp : Spawn R T) (w : Worker R T) (t : Option R) : List T :=
  match w.pc, t with
  | .work scratch out, _ => hand sp.body scratch out
  | .pull batch, _ => batch
  | .trySend d scratch out, some r => d.owed sp.outputs r ++ hand sp.body scratch out
  | .send d scratch out, some r => d.owed sp.outputs r ++ hand sp.body scratch out
  | _, _ => []

/-- what an effect emits to a target -/
def emits (eff : Effect R T) (t : Option R) : List T :=
  match eff, t with
  | .push r xs, some r' => if r = r' then xs else []
  | .consume x, none => [x]
  | _, _ => []

/-- what an effect draws from a ring -/
def draws (v : View R T) : Effect R T → List T
  | .take r m => (v.queue r).take m
  | _ => []

/-- what an effect pulls from the source's iterator -/
def pulls : Effect R T → List T
  | .yield x => [x]
  | _ => []

def takes (v : View R T) (eff : Effect R T) : List T := draws v eff ++ pulls eff

/-- the balance of a step: what is owed after it and emitted by it was owed before or taken in -/
def Balanced (sp : Spawn R T) (v : View R T) (w w' : Worker R T) (eff : Effect R T) : Prop :=
  ∀ t, Target sp t →
    (owes sp w' t + emits eff t : Multiset T) = owes sp w t + ((takes v eff).flatMap sp.body.outputs : List T)

theorem Balanced.silent (h : ∀ t, Target sp t → owes sp w' t = owes sp w t) : Balanced sp v w w' .silent := by
  intro t ht
  simp [emits, takes, draws, pulls, h t ht]

/-- the places of a claim, and the return: nothing is owed there -/
def Pc.idle : Pc T → Bool
  | .work _ _ => false
  | .pull _ => false
  | .trySend _ _ _ => false
  | .send _ _ _ => false
  | _ => true

theorem owes_idle (h : w.pc.idle = true) (t : Option R) : owes sp w t = [] := by
  cases hpc : w.pc <;> simp_all [owes, Pc.idle]

/-- a claim's step that claims nothing -/
theorem Balanced.idle (h : w.pc.idle = true) (h' : w'.pc.idle = true) : Balanced sp v w w' .silent :=
  .silent fun t _ => by rw [owes_idle h, owes_idle h']

/-- a claim's step that claims: the worker now owes the outputs of what it claimed -/
theorem Balanced.claimed (h : w.pc.idle = true) {i m : ℕ} {r : R} {xs : List T} (hxs : (v.queue r).take m = xs) :
    Balanced sp v w (w.claimed i xs) (.take r m) := by
  intro t _
  rw [owes_idle h, takes, draws, hxs]
  simp [emits, pulls, owes, Worker.claimed, hand]

omit [DecidableEq R] in
theorem Target.exists_of_not_sink {t : Option R} (ht : Target sp t) (hs : sp.body.isSink = false) :
    ∃ r ∈ sp.outputs, t = some r := by
  cases t with
  | none => simp [Target, hs] at ht
  | some r => exact ⟨r, ht, rfl⟩

/-- a delivery starts: it owes the whole batch on every edge -/
theorem owes_deliver (h : Live sp v w) (hf : Fits sp) (hs : sp.body.isSink = false) {t : Option R} (ht : Target sp t)
    (b : Bool) (batch scratch out : List T) :
    owes sp (w.deliver b batch scratch out) t = batch ++ hand sp.body scratch out := by
  obtain ⟨r, -, rfl⟩ := ht.exists_of_not_sink hs
  have hlen : 0 < sp.outputs.length := List.length_pos_of_ne_nil (hf.outputs_ne_nil hs)
  simp only [Worker.deliver, Worker.atEdge, h.txs, hlen, if_true]
  split_ifs <;> simp [owes, Worker.goto, Delivery.owed]

/-! ## One step -/

theorem roundStep_balanced {m k : ℕ} (hpc : w.pc.idle = true) (hs : w.roundStep sp v m k = some (w', eff)) :
    Balanced sp v w w' eff := by
  simp only [Worker.roundStep] at hs
  split_ifs at hs
  any_goals
    cases hs
    exact .idle hpc rfl
  split at hs
  · cases hs
  · split_ifs at hs
    · cases hs
      exact .claimed hpc rfl
    · cases hs
      exact .idle hpc rfl

theorem probeStep_balanced {k : ℕ} (hpc : w.pc.idle = true) (hs : w.probeStep v k = some (w', eff)) :
    Balanced sp v w w' eff := by
  simp only [Worker.probeStep] at hs
  split at hs
  · cases hs
  · split_ifs at hs
    all_goals
      cases hs
      exact .idle hpc rfl

theorem tryItemStep_balanced {m k : ℕ} (hpc : w.pc.idle = true) (hs : w.tryItemStep v m k = some (w', eff)) :
    Balanced sp v w w' eff := by
  simp only [Worker.tryItemStep] at hs
  split at hs
  · cases hs
  · split at hs
    · split_ifs at hs
      all_goals
        cases hs
        exact .idle hpc rfl
    · next hq =>
      split_ifs at hs
      · cases hs
        exact .idle hpc rfl
      · cases hs
        exact .claimed hpc (by rw [hq]; rfl)

theorem anchorStep_balanced {m : ℕ} (hpc : w.pc.idle = true) (hs : w.anchorStep v m = some (w', eff)) :
    Balanced sp v w w' eff := by
  simp only [Worker.anchorStep] at hs
  split_ifs at hs
  · cases hs
    exact .idle hpc rfl
  · split at hs
    · cases hs
    · split at hs
      · split_ifs at hs
        cases hs
        exact .idle hpc rfl
      · next hq =>
        cases hs
        exact .claimed hpc (by rw [hq]; rfl)

theorem singleStep_balanced {k : ℕ} (hpc : w.pc.idle = true) (hs : w.singleStep v k = some (w', eff)) :
    Balanced sp v w w' eff := by
  simp only [Worker.singleStep] at hs
  split_ifs at hs
  · cases hs
    exact .idle hpc rfl
  · cases hs
    exact .idle hpc rfl
  · split at hs
    · cases hs
    · split at hs
      · split_ifs at hs
        cases hs
        exact .idle hpc rfl
      · next hq =>
        cases hs
        exact .claimed hpc (by rw [hq]; rfl)

theorem dropStep_balanced (hpc : w.pc.idle = true) (hs : w.dropStep = some (w', eff)) : Balanced sp v w w' eff := by
  simp only [Worker.dropStep] at hs
  split at hs
  · cases hs
    exact .idle hpc hpc
  · cases hs
    exact .idle hpc hpc
  · cases hs

section Deliveries

variable (hf : Fits sp) (h : Live sp v w)
include hf h

theorem workStep_balanced {scratch out : List T} (hpc : w.pc = .work scratch out)
    (hs : w.workStep sp scratch out = some (w', eff)) : Balanced sp v w w' eff := by
  have hw : WorkOk sp.body scratch out := by simpa only [PlaceOk, hpc] using h.place
  have hbefore : ∀ t, owes sp w t = hand sp.body scratch out := by simp [owes, hpc]
  cases workStep_cases hw hs with
  | head hscratch hout =>
    apply Balanced.silent
    intro t _
    subst hscratch hout
    rw [hbefore]
    cases hb : sp.body <;> simp [owes, Worker.goto, Worker.head, hand]
  | deliver b batch scratch' out' hsink _ hh =>
    apply Balanced.silent
    intro t ht
    rw [hbefore, owes_deliver h hf hsink ht, hh]
  | load scratch' out' _ hh =>
    apply Balanced.silent
    intro t _
    rw [hbefore, ← hh]
    rfl
  | consume x rest hsink hscratch hout =>
    intro t ht
    subst hscratch hout
    have hid : sp.body.outputs = fun x => [x] := by
      cases hb : sp.body <;> simp_all [Body.isSink]
      rfl
    cases t with
    | none =>
      rw [hbefore]
      simp only [owes, Worker.goto, hand, hid, emits, takes, draws, pulls, List.nil_append, List.flatMap_cons,
        List.flatMap_nil, ← Multiset.coe_add, Multiset.coe_nil, add_zero]
      exact add_comm _ _
    | some r =>
      have hnil := hf.sink.1 hsink
      simp [Target, hnil] at ht

theorem pullStep_balanced {y : Option T} {batch : List T} (hpc : w.pc = .pull batch)
    (hs : w.pullStep sp y batch = some (w', eff)) : Balanced sp v w w' eff := by
  have hp : ∃ cap, sp.body = .source cap ∧ (cap = 0 → batch = []) := by simpa only [PlaceOk, hpc] using h.place
  have hbefore : ∀ t, owes sp w t = batch := by simp [owes, hpc]
  have hid : sp.body.outputs = (fun x => [x]) ∧ sp.body.isSink = false := by
    obtain ⟨cap, hb, -⟩ := hp
    rw [hb]
    exact ⟨rfl, rfl⟩
  cases pullStep_cases hp hs with
  | done hb =>
    apply Balanced.silent
    intro t _
    rw [hbefore, hb]
    rfl
  | flush =>
    apply Balanced.silent
    intro t ht
    rw [hbefore, owes_deliver h hf hid.2 ht]
    simp [hand]
  | send b x =>
    intro t ht
    rw [hbefore, owes_deliver h hf hid.2 ht, hid.1]
    simp only [hand, emits, takes, draws, pulls, List.flatMap_nil, List.append_nil, Multiset.coe_nil, add_zero]
    exact (Multiset.coe_add batch [x]).symm
  | more x cap hb hcap =>
    intro t ht
    rw [hbefore, hid.1]
    simp only [owes, Worker.goto, emits, takes, draws, pulls, Multiset.coe_nil, add_zero]
    exact (Multiset.coe_add batch [x]).symm

end Deliveries

section Edges

variable {outputs : List R} {d : Delivery T} {r r' : R}

/-- the edge a delivery is at lacks what is staged -/
theorem owed_self (hnd : outputs.Nodup) (hr : outputs[d.edge]? = some r) : d.owed outputs r = d.staged := by
  obtain ⟨hlt, rfl⟩ := List.getElem?_eq_some_iff.1 hr
  simp [Delivery.owed, hnd.idxOf_getElem]

/-- what is staged does not matter to the other edges -/
theorem owed_other (hr : outputs[d.edge]? = some r) (hne : r ≠ r') (hr' : r' ∈ outputs) (staged : List T) :
    { d with staged := staged }.owed outputs r' = d.owed outputs r' := by
  have hidx : outputs.idxOf r' ≠ d.edge := by
    intro heq
    have hget := List.getElem?_eq_getElem (List.idxOf_lt_length_of_mem hr')
    rw [List.getElem_idxOf, heq, hr] at hget
    exact hne (Option.some.inj hget)
  simp [Delivery.owed, hidx]

/-- with nothing staged, what is owed is owed on the edges after this one -/
theorem owed_next (hs : d.staged = []) :
    d.owed outputs r' = if d.edge < outputs.idxOf r' then d.batch else [] := by
  rcases Nat.lt_trichotomy (outputs.idxOf r') d.edge with hlt | heq | hgt
  · simp [Delivery.owed, hlt, Nat.lt_asymm hlt]
  · simp [Delivery.owed, heq, hs]
  · simp [Delivery.owed, hgt, Nat.lt_asymm hgt, Nat.ne_of_gt hgt]

theorem owed_start (b : Bool) (batch : List T) (i : ℕ) :
    (Delivery.mk b batch i batch).owed outputs r' = if i ≤ outputs.idxOf r' then batch else [] := by
  rcases Nat.lt_trichotomy (outputs.idxOf r') i with hlt | heq | hgt
  · simp [Delivery.owed, hlt, Nat.not_le.2 hlt]
  · simp [Delivery.owed, heq]
  · simp [Delivery.owed, Nat.lt_asymm hgt, Nat.ne_of_gt hgt, Nat.le_of_lt hgt]

/-- pushing the first items staged settles them -/
theorem owed_push (hnd : outputs.Nodup) (hr : outputs[d.edge]? = some r) (hr' : r' ∈ outputs) {xs rest : List T}
    (hsplit : d.staged = xs ++ rest) :
    ({ d with staged := rest }.owed outputs r' + emits (.push r xs) (some r') : Multiset T) = d.owed outputs r' := by
  by_cases hrr : r = r'
  · subst hrr
    rw [owed_self hnd hr, owed_self (d := { d with staged := rest }) hnd hr, hsplit]
    simp only [emits, if_true, ← Multiset.coe_add]
    exact add_comm _ _
  · rw [owed_other hr hrr hr']
    simp [emits, hrr]

end Edges

omit [DecidableEq R] in
/-- a worker at an edge is no sink's -/
theorem Target.exists_of_edge {t : Option R} (ht : Target sp t) (hf : Fits sp) {i : ℕ} (hi : i < sp.outputs.length) :
    ∃ r ∈ sp.outputs, t = some r := by
  apply ht.exists_of_not_sink
  by_contra hsink
  simp [hf.sink.1 (by simpa using hsink)] at hi

/-- a push on the edge a delivery is at -/
theorem Balanced.push (hnd : sp.outputs.Nodup) (hf : Fits sp) {d : Delivery T} {scratch out xs rest : List T} {r : R}
    (hpc : w.pc = .trySend d scratch out ∨ w.pc = .send d scratch out) (hr : sp.outputs[d.edge]? = some r)
    (hsplit : d.staged = xs ++ rest) :
    Balanced sp v w (w.goto (.send { d with staged := rest } scratch out)) (.push r xs) := by
  intro t ht
  obtain ⟨r', hr', rfl⟩ := ht.exists_of_edge hf (List.getElem?_eq_some_iff.1 hr).1
  have hbefore : owes sp w (some r') = d.owed sp.outputs r' ++ hand sp.body scratch out := by
    rcases hpc with hpc | hpc <;> simp [owes, hpc]
  have hpush := owed_push hnd hr hr' hsplit
  rw [hbefore]
  simp only [owes, Worker.goto, takes, draws, pulls, List.nil_append, List.flatMap_nil, ← Multiset.coe_add,
    Multiset.coe_nil, add_zero]
  rw [add_right_comm, hpush]

section Sends

variable (hnd : sp.outputs.Nodup) (hf : Fits sp) (h : Live sp v w)
include hnd hf h

theorem trySendStep_balanced {m : ℕ} {d : Delivery T} {scratch out : List T} (hpc : w.pc = .trySend d scratch out)
    (hs : w.trySendStep v m d scratch out = some (w', eff)) : Balanced sp v w w' eff := by
  simp only [Worker.trySendStep, h.txs] at hs
  split at hs
  · cases hs
  · next r hr =>
    cases hs
    exact .push hnd hf (.inl hpc) hr (List.take_append_drop _ d.staged).symm

theorem sendStep_balanced {d : Delivery T} {scratch out : List T} (hpc : w.pc = .send d scratch out)
    (hrecv : ∀ r ∈ sp.outputs, v.receiver r = true) (hs : w.sendStep sp v d scratch out = some (w', eff)) :
    Balanced sp v w w' eff := by
  have hp : d.edge < sp.outputs.length ∧ WorkOk sp.body scratch out := by simpa only [PlaceOk, hpc] using h.place
  simp only [Worker.sendStep, h.txs] at hs
  split at hs
  · cases hs
  · next r hr =>
    split at hs
    · next hstaged =>
      cases hs
      apply Balanced.silent
      intro t ht
      obtain ⟨r', hr', rfl⟩ := ht.exists_of_edge hf hp.1
      have hidx := List.idxOf_lt_length_of_mem hr'
      have hne : sp.outputs ≠ [] := List.ne_nil_of_mem hr'
      simp only [owes, hpc, owed_next hstaged, Worker.atEdge, h.txs, hne, if_false]
      by_cases hlast : d.edge + 1 < sp.outputs.length
      · rw [if_pos hlast]
        split_ifs with hb
        all_goals simp [Worker.goto, owed_start, *]
      · rw [if_neg hlast, if_neg (by omega)]
        rfl
    · next x rest hstaged =>
      split_ifs at hs with hclosed
      · simp [hrecv r (List.mem_of_getElem? hr)] at hclosed
      · cases hs
        exact .push hnd hf (.inr hpc) hr hstaged

end Sends

/-- **a worker's step is balanced**, as long as its edges have receivers -/
theorem next_balanced (hnd : sp.outputs.Nodup) (hf : Fits sp) (h : Holds sp v w)
    (hrecv : w.pc ≠ .done → ∀ r ∈ sp.outputs, v.receiver r = true) {m : ℕ} {y : Option T}
    (hs : w.next sp v m y = some (w', eff)) : Balanced sp v w w' eff := by
  cases hpc : w.pc with
  | round k => exact roundStep_balanced (by rw [hpc]; rfl) (by simpa only [Worker.next, hpc] using hs)
  | probe k => exact probeStep_balanced (by rw [hpc]; rfl) (by simpa only [Worker.next, hpc] using hs)
  | tryItem k => exact tryItemStep_balanced (by rw [hpc]; rfl) (by simpa only [Worker.next, hpc] using hs)
  | anchor => exact anchorStep_balanced (by rw [hpc]; rfl) (by simpa only [Worker.next, hpc] using hs)
  | single k => exact singleStep_balanced (by rw [hpc]; rfl) (by simpa only [Worker.next, hpc] using hs)
  | work scratch out =>
    exact workStep_balanced hf (h.live (by simp [hpc])) hpc (by simpa only [Worker.next, hpc] using hs)
  | pull batch => exact pullStep_balanced hf (h.live (by simp [hpc])) hpc (by simpa only [Worker.next, hpc] using hs)
  | trySend d scratch out =>
    exact trySendStep_balanced hnd hf (h.live (by simp [hpc])) hpc (by simpa only [Worker.next, hpc] using hs)
  | send d scratch out =>
    exact sendStep_balanced hnd hf (h.live (by simp [hpc])) hpc (hrecv (by simp [hpc]))
      (by simpa only [Worker.next, hpc] using hs)
  | done => exact dropStep_balanced (by rw [hpc]; rfl) (by simpa only [Worker.next, hpc] using hs)

end Owes

/-! ## The ledgers of a run -/

section Ledger

variable {S R T : Type} [DecidableEq S] [DecidableEq R] {N : Network S R T} {rank : S → ℕ} {s s' : St S R T}

/-- the outputs of many items -/
def spread (b : Body T) (items : Multiset T) : Multiset T := items.bind fun x => (b.outputs x : Multiset T)

omit [DecidableEq S] [DecidableEq R] in
@[simp] theorem spread_add (b : Body T) (x y : Multiset T) : spread b (x + y) = spread b x + spread b y :=
  Multiset.add_bind _ _ _

omit [DecidableEq S] [DecidableEq R] in
theorem spread_coe (b : Body T) (l : List T) : spread b l = (l.flatMap b.outputs : List T) := Multiset.coe_bind _ _

/-- what has gone to a target -/
def emitted (s : St S R T) (st : S) : Option R → List T
  | none => s.received st
  | some r => s.sent r

/-- what the input rings hold -/
def waiting (N : Network S R T) (s : St S R T) (st : S) : Multiset T :=
  ((N.spawn st).inputs.map fun r => (s.queue r : Multiset T)).sum

/-- what was yielded by the iterator or pushed on the input rings -/
def arrived (N : Network S R T) (s : St S R T) (st : S) : Multiset T :=
  s.yielded st + ((N.spawn st).inputs.map fun r => (s.sent r : Multiset T)).sum

/-- what an effect pushes on the input rings of a station -/
def pushesTo (N : Network S R T) (st : S) : Effect R T → Multiset T
  | .push r xs => if r ∈ (N.spawn st).inputs then xs else 0
  | _ => 0

structure Ledger (N : Network S R T) (s : St S R T) : Prop where
  balance : ∀ st ∈ N.stations, ∀ t, Target (N.spawn st) t →
    (emitted s st t : Multiset T) +
        (∑ k ∈ Finset.range (N.workers st), (owes (N.spawn st) (s.worker (st, k)) t : Multiset T)) +
      spread (N.spawn st).body (waiting N s st) = spread (N.spawn st).body (arrived N s st)
  yielded : ∀ st ∈ N.stations, (N.spawn st).body.isSource = false → s.yielded st = []

section Rings

variable {l : List R} {q : R → List T}

omit [DecidableEq S] in
theorem coe_update (r : R) (xs : List T) :
    (fun r' => (Function.update q r xs r' : Multiset T)) = Function.update (fun r' => (q r' : Multiset T)) r xs := by
  funext r'
  exact Function.apply_update (fun _ (ys : List T) => (ys : Multiset T)) q r xs r'

/-- the items of a family of rings after a push -/
theorem ring_sum_append (hnd : l.Nodup) (r : R) (xs : List T) :
    (l.map fun r' => (Function.update q r (q r ++ xs) r' : Multiset T)).sum =
      (l.map fun r' => (q r' : Multiset T)).sum + if r ∈ l then (xs : Multiset T) else 0 := by
  rw [coe_update]
  split_ifs with hr
  · have hsum := list_sum_update_add hnd hr (fun r' => (q r' : Multiset T)) (q r ++ xs : List T)
    apply add_right_cancel (hsum.trans _)
    rw [← Multiset.coe_add]
    abel
  · rw [list_sum_update_of_notMem hr, add_zero]

/-- the items of a family of rings after a take -/
theorem ring_sum_drop (hnd : l.Nodup) {r : R} (hr : r ∈ l) (m : ℕ) :
    (l.map fun r' => (Function.update q r ((q r).drop m) r' : Multiset T)).sum + ((q r).take m : List T) =
      (l.map fun r' => (q r' : Multiset T)).sum := by
  have hsum := list_sum_update_add hnd hr (fun r' => (q r' : Multiset T)) ((q r).drop m : List T)
  have hsplit : (q r : Multiset T) = ((q r).take m : List T) + ((q r).drop m : List T) := by
    rw [Multiset.coe_add, List.take_append_drop]
  rw [hsplit, ← add_assoc] at hsum
  rw [coe_update]
  exact add_right_cancel hsum

end Rings

section Apply

variable {id : S × ℕ} {st : S} {w w' : Worker R T} {eff : Effect R T}

theorem emitted_apply_self (t : Option R) : emitted (s.apply id w' eff) id.1 t = emitted s id.1 t ++ emits eff t := by
  cases eff with
  | push r xs =>
    cases t with
    | none => simp [emitted, emits, St.apply]
    | some r' =>
      by_cases hr : r' = r
      · subst hr
        simp [emitted, emits, St.apply]
      · simp [emitted, emits, St.apply, hr, Ne.symm hr]
  | _ => cases t <;> simp [emitted, emits, St.apply]

theorem emitted_apply_of_ne (hv : N.Valid rank) (hid : id.1 ∈ N.stations) (hst : st ∈ N.stations) (hne : st ≠ id.1)
    {t : Option R} (ht : Target (N.spawn st) t) (hs : Suits (N.spawn id.1) w eff) (htxs : w.txs ⊆ (N.spawn id.1).outputs) :
    emitted (s.apply id w' eff) st t = emitted s st t := by
  cases eff with
  | push r xs =>
    cases t with
    | none => rfl
    | some r' =>
      have hr : r' ≠ r := by
        rintro rfl
        exact hne (hv.one_producer st hst id.1 hid r' ht (htxs hs))
      simp [emitted, St.apply, hr]
  | consume x => cases t <;> simp [emitted, St.apply, hne]
  | _ => cases t <;> rfl

theorem waiting_apply (w' : Worker R T) (hv : N.Valid rank) (hid : id.1 ∈ N.stations) (hst : st ∈ N.stations)
    (hs : Suits (N.spawn id.1) w eff) :
    waiting N (s.apply id w' eff) st + (if st = id.1 then (draws (N.view s) eff : Multiset T) else 0) =
      waiting N s st + pushesTo N st eff := by
  cases eff with
  | take r m =>
    simp only [pushesTo, add_zero]
    split_ifs with heq
    · subst heq
      exact ring_sum_drop (hv.inputs_nodup _ hst) hs m
    · have hr : r ∉ (N.spawn st).inputs := fun hr => heq (hv.one_consumer st hst id.1 hid r hr hs)
      simp only [waiting, St.apply, coe_update, list_sum_update_of_notMem hr, add_zero]
  | push r xs =>
    simp only [draws, Multiset.coe_nil, ite_self, add_zero]
    exact ring_sum_append (hv.inputs_nodup _ hst) r xs
  | _ => simp [waiting, St.apply, draws, pushesTo]

theorem arrived_apply (hv : N.Valid rank) (hst : st ∈ N.stations) :
    arrived N (s.apply id w' eff) st =
      arrived N s st + pushesTo N st eff + if st = id.1 then (pulls eff : Multiset T) else 0 := by
  cases eff with
  | push r xs =>
    simp only [arrived, St.apply, pulls, pushesTo, ring_sum_append (hv.inputs_nodup _ hst), Multiset.coe_nil, ite_self]
    rw [add_zero, add_assoc]
  | yield x =>
    split_ifs with heq
    · subst heq
      simp only [arrived, St.apply, pulls, pushesTo, Function.update_self, ← Multiset.coe_add, add_zero]
      exact add_right_comm _ _ _
    · simp [arrived, St.apply, pushesTo, heq]
  | _ => simp [arrived, St.apply, pulls, pushesTo]

theorem yielded_apply (hs : Suits (N.spawn id.1) w eff) (hsrc : (N.spawn st).body.isSource = false) :
    (s.apply id w' eff).yielded st = s.yielded st := by
  cases eff with
  | yield x =>
    have hne : st ≠ id.1 := by
      rintro rfl
      have := hsrc.symm.trans hs
      cases this
    simp [St.apply, hne]
  | _ => rfl

end Apply

theorem init_ledger : Ledger N N.init where
  balance st hst t _ := by
    have hfresh : ∀ k ∈ Finset.range (N.workers st), owes (N.spawn st) (N.init.worker (st, k)) t = [] := by
      intro k hk
      have hid : (st, k) ∈ N.ids := N.mem_ids.2 ⟨hst, Finset.mem_range.1 hk⟩
      simp only [Network.init, hid, if_true, Worker.fresh]
      cases (N.spawn st).body <;> simp [owes, Worker.head]
    rw [Finset.sum_congr rfl fun k hk => by rw [hfresh k hk]]
    cases t <;> simp [emitted, waiting, arrived, Network.init, spread]
  yielded _ _ _ := rfl

/-- the debts of a station after a step of one of its workers -/
theorem owes_sum_apply {id : S × ℕ} {w' : Worker R T} {eff : Effect R T} (hid : id ∈ N.ids) (t : Option R) :
    (∑ k ∈ Finset.range (N.workers id.1), (owes (N.spawn id.1) ((s.apply id w' eff).worker (id.1, k)) t : Multiset T)) +
        owes (N.spawn id.1) (s.worker id) t =
      (∑ k ∈ Finset.range (N.workers id.1), (owes (N.spawn id.1) (s.worker (id.1, k)) t : Multiset T)) +
        owes (N.spawn id.1) w' t := by
  have hcomp : (fun k => (owes (N.spawn id.1) ((s.apply id w' eff).worker (id.1, k)) t : Multiset T)) =
      Function.update (fun k => (owes (N.spawn id.1) (s.worker (id.1, k)) t : Multiset T)) id.2
        (owes (N.spawn id.1) w' t : List T) := by
    funext k
    rw [St.apply_worker]
    by_cases hk : k = id.2
    · subst hk
      rw [Function.update_self, Function.update_self]
    · have hne : (id.1, k) ≠ id := fun heq => hk (congrArg Prod.snd heq)
      rw [Function.update_of_ne hk, Function.update_of_ne hne]
  rw [hcomp]
  exact sum_update_add (Finset.mem_range.2 (N.mem_ids.1 hid).2) _ _

theorem owes_sum_apply_of_ne {id : S × ℕ} {st : S} {w' : Worker R T} {eff : Effect R T} (hne : st ≠ id.1) (t : Option R) :
    (∑ k ∈ Finset.range (N.workers st), (owes (N.spawn st) ((s.apply id w' eff).worker (st, k)) t : Multiset T)) =
      ∑ k ∈ Finset.range (N.workers st), (owes (N.spawn st) (s.worker (st, k)) t : Multiset T) := by
  apply Finset.sum_congr rfl
  intro k _
  have hid : (st, k) ≠ id := fun heq => hne (congrArg Prod.fst heq)
  rw [St.apply_worker, Function.update_of_ne hid]

/-- the books after a step: `e` emitted, `d` owed and `w` waiting against `a` arrived, with what the step emits, draws from
the rings, pulls from the iterator and pushes to them -/
theorem books {M : Type} [AddCancelCommMonoid M] {e d d' o o' w w' a emits draws pulls pushes : M} (hold : e + d + w = a)
    (howes : d' + o = d + o') (hwait : w' + draws = w + pushes) (hbal : o' + emits = o + (draws + pulls)) :
    e + emits + d' + w' = a + pushes + pulls := by
  apply add_right_cancel (b := o + draws)
  calc e + emits + d' + w' + (o + draws) = e + emits + (d' + o) + (w' + draws) := by abel
    _ = e + emits + (d + o') + (w + pushes) := by rw [howes, hwait]
    _ = e + d + w + pushes + (o' + emits) := by abel
    _ = a + pushes + (o + (draws + pulls)) := by rw [hold, hbal]
    _ = a + pushes + pulls + (o + draws) := by abel

theorem Ledger.step (hl : Ledger N s) (h : N.Inv s) (hv : N.Valid rank) {a : Act S T} (hs : N.step s a = some s') :
    Ledger N s' := by
  obtain ⟨w, eff, hn, rfl⟩ := Network.step_iff.1 hs
  obtain ⟨hid, hsound⟩ := h.step_sound hv hn
  have hst₀ := (N.mem_ids.1 hid).1
  have hbal := next_balanced (hv.outputs_nodup _ hst₀) (hv.fits _ hst₀) (h.holds _ hid) (h.receiver hv hid) hn
  refine ⟨fun st hst t ht => ?_, fun st hst hsrc => ?_⟩
  · have hold := hl.balance st hst t ht
    have hwait := waiting_apply (s := s) w hv hst₀ hst hsound.suits
    rw [arrived_apply hv hst]
    by_cases heq : st = a.worker.1
    · subst heq
      have hbal' := hbal t ht
      rw [takes, List.flatMap_append, ← Multiset.coe_add, ← spread_coe, ← spread_coe] at hbal'
      have hwait' := congrArg (spread (N.spawn a.worker.1).body) hwait
      rw [if_pos rfl, spread_add, spread_add] at hwait'
      rw [if_pos rfl, spread_add, spread_add, emitted_apply_self, ← Multiset.coe_add]
      exact books hold (owes_sum_apply hid t) hwait' hbal'
    · rw [emitted_apply_of_ne hv hst₀ hst heq ht hsound.suits (h.holds _ hid).txs_sub, owes_sum_apply_of_ne heq]
      simp only [heq, if_false, add_zero] at hwait ⊢
      rw [hwait, spread_add, spread_add, ← add_assoc, hold]
  · rw [yielded_apply hsound.suits hsrc]
    exact hl.yielded st hst hsrc

/-- the ledgers along a run -/
theorem Ledger.run (hl : Ledger N s) (h : N.Inv s) (hv : N.Valid rank) {acts : List (Act S T)}
    (hr : N.run s acts = some s') : Ledger N s' := by
  refine (Machine.run_keeps (P := fun s => Ledger N s ∧ N.Inv s) (fun _ hi hs => ?_) ⟨hl, h⟩ hr).1
  exact ⟨hi.1.step hi.2 hv hs, hi.2.step hv hs⟩

omit [DecidableEq S] in
/-- **all workers have exited**: everything that arrived was emitted -/
theorem Ledger.settled (hl : Ledger N s) (h : N.Inv s) (hv : N.Valid rank) (hex : ∀ id ∈ N.ids, (s.worker id).exited)
    {st : S} (hst : st ∈ N.stations) {t : Option R} (ht : Target (N.spawn st) t) :
    (emitted s st t : Multiset T) = spread (N.spawn st).body (arrived N s st) := by
  have hid : ∀ k ∈ Finset.range (N.workers st), (st, k) ∈ N.ids := fun k hk =>
    N.mem_ids.2 ⟨hst, Finset.mem_range.1 hk⟩
  have howes : ∀ k ∈ Finset.range (N.workers st), (owes (N.spawn st) (s.worker (st, k)) t : Multiset T) = 0 := by
    intro k hk
    rw [owes_idle (by rw [(hex _ (hid k hk)).1]; rfl)]
    rfl
  have hzero : 0 ∈ Finset.range (N.workers st) := Finset.mem_range.2 (hv.workers_pos st hst)
  have hwait : waiting N s st = 0 := by
    apply List.sum_eq_zero
    intro x hx
    obtain ⟨r, hr, rfl⟩ := List.mem_map.1 hx
    have hd := (h.holds _ (hid 0 hzero)).eof (hex _ (hid 0 hzero)).1 r hr
    rw [show s.queue r = [] from hd.1]
    rfl
  have hbal := hl.balance st hst t ht
  rw [Finset.sum_eq_zero howes, hwait] at hbal
  simpa [spread] using hbal

end Ledger

/-! ## The end of a source -/

section Sources

section Step

variable {R T : Type} {sp : Spawn R T} {v : View R T} {w w' : Worker R T} {eff : Effect R T}

/-- a worker with an edge to deliver on is in no claim after a delivery, and has not returned -/
theorem atEdge_idle (hout : w.txs ≠ []) (batched : Bool) (batch scratch out : List T) (i : ℕ) :
    (w.atEdge batched batch scratch out i).pc.idle = false := by
  simp only [Worker.atEdge, hout, if_false]
  split_ifs <;> rfl

theorem dropStep_frame (hs : w.dropStep = some (w', eff)) : w'.pc = w.pc ∧ eff = .silent := by
  simp only [Worker.dropStep] at hs
  split at hs <;> cases hs
  · exact ⟨rfl, rfl⟩
  · exact ⟨rfl, rfl⟩

/-- **a source returns at the end of its iterator**, with nothing in hand -/
theorem next_source (hf : Fits sp) (h : Holds sp v w) (hrecv : w.pc ≠ .done → ∀ r ∈ sp.outputs, v.receiver r = true)
    (hsrc : sp.body.isSource = true) (hplace : w.pc.idle = false) {m : ℕ} {y : Option T} (hs : w.next sp v m y = some (w', eff)) :
    w'.pc.idle = false ∨ (w'.pc = .done ∧ w.pc = .pull [] ∧ y = none ∧ eff = .silent) := by
  obtain ⟨cap, hb⟩ : ∃ cap, sp.body = .source cap := by cases hb : sp.body <;> simp_all [Body.isSource]
  have hne : w.pc ≠ .done := by
    intro hpc
    rw [hpc] at hplace
    cases hplace
  have hl := h.live hne
  have hout : w.txs ≠ [] := hl.txs ▸ hf.outputs_ne_nil (by rw [hb]; rfl)
  cases hpc : w.pc with
  | work scratch out =>
    have hw : WorkOk sp.body scratch out := by simpa only [PlaceOk, hpc] using hl.place
    rw [Worker.next, hpc] at hs
    cases workStep_cases hw hs with
    | head =>
      rw [hb]
      exact Or.inl rfl
    | deliver => exact Or.inl (atEdge_idle hout _ _ _ _ _)
    | load => exact Or.inl rfl
    | consume => exact Or.inl rfl
  | pull batch =>
    have hp : ∃ cap, sp.body = .source cap ∧ (cap = 0 → batch = []) := by simpa only [PlaceOk, hpc] using hl.place
    rw [Worker.next, hpc] at hs
    cases pullStep_cases hp hs with
    | done hnil => exact Or.inr ⟨rfl, by rw [hnil], rfl, rfl⟩
    | flush => exact Or.inl (atEdge_idle hout _ _ _ _ _)
    | send => exact Or.inl (atEdge_idle hout _ _ _ _ _)
    | more => exact Or.inl rfl
  | trySend d scratch out =>
    rw [Worker.next, hpc] at hs
    simp only [Worker.trySendStep] at hs
    split at hs <;> cases hs
    exact Or.inl rfl
  | send d scratch out =>
    rw [Worker.next, hpc] at hs
    simp only [Worker.sendStep, hl.txs] at hs
    split at hs
    · cases hs
    · next r hr =>
      split at hs
      · cases hs
        exact Or.inl (atEdge_idle hout _ _ _ _ _)
      · rw [hrecv hne r (List.mem_of_getElem? hr)] at hs
        simp only [Bool.true_eq_false, if_false] at hs
        split_ifs at hs
        cases hs
        exact Or.inl rfl
  | _ =>
    rw [hpc] at hplace
    cases hplace

end Step

variable {S R T : Type} [DecidableEq S] [DecidableEq R] {N : Network S R T} {rank : S → ℕ} {s s' : St S R T}

/-- a step that is no yield of the station's own worker yields nothing there -/
theorem yielded_keep {id : S × ℕ} {st : S} {w : Worker R T} {eff : Effect R T} (h : st = id.1 → eff = .silent) :
    (s.apply id w eff).yielded st = s.yielded st := by
  cases eff with
  | yield x =>
    have hne : st ≠ id.1 := fun heq => by cases h heq
    exact Function.update_of_ne hne _ _
  | _ => rfl

/-- the only worker of a station yields nothing once it has returned -/
theorem run_source_done (h : N.Inv s) (hv : N.Valid rank) {st : S} (hone : N.workers st = 1) (hd : (s.worker (st, 0)).pc = .done)
    {acts : List (Act S T)} (hr : N.run s acts = some s') : s'.yielded st = s.yielded st := by
  refine (Machine.run_keeps (P := fun s₁ => N.Inv s₁ ∧ (s₁.worker (st, 0)).pc = .done ∧ s₁.yielded st = s.yielded st)
    (fun {a s₁ s₂} _ hP hs => ?_) ⟨h, hd, rfl⟩ hr).2.2
  obtain ⟨hinv, hdone, hyield⟩ := hP
  obtain ⟨w, eff, hn, rfl⟩ := Network.step_iff.1 hs
  obtain ⟨hid, -⟩ := hinv.step_sound hv hn
  refine ⟨hinv.step hv hs, ?_, ?_⟩
  · rw [St.apply_worker]
    by_cases heq : (st, 0) = a.worker
    · rw [← heq, Worker.next, hdone] at hn
      rw [← heq, Function.update_self, (dropStep_frame hn).1, hdone]
    · rw [Function.update_of_ne heq]
      exact hdone
  · refine (yielded_keep fun hst => ?_).trans hyield
    have hlast : a.worker.2 < 1 := hone ▸ hst ▸ (N.mem_ids.1 hid).2
    have heq : a.worker = (st, 0) := Prod.ext hst.symm (Nat.lt_one_iff.1 hlast)
    rw [heq, Worker.next, hdone] at hn
    exact (dropStep_frame hn).2

/-- a step leaves a source at its iterator or in a delivery, or is the one in which its iterator has nothing more -/
theorem step_source (h : N.Inv s) (hv : N.Valid rank) {id : S × ℕ} (hid : id ∈ N.ids) (hsrc : (N.spawn id.1).body.isSource = true)
    (hplace : (s.worker id).pc.idle = false) {a : Act S T} (hs : N.step s a = some s') :
    (s'.worker id).pc.idle = false ∨
      ((s'.worker id).pc = .done ∧ (s.worker id).pc = .pull [] ∧ a = ⟨id, a.pick, none⟩ ∧ s'.yielded = s.yielded) := by
  obtain ⟨w, eff, hn, rfl⟩ := Network.step_iff.1 hs
  obtain ⟨worker, pick, item⟩ := a
  rw [St.apply_worker]
  by_cases heq : worker = id
  · subst heq
    rw [Function.update_self]
    rcases next_source (hv.fits _ (N.mem_ids.1 hid).1) (h.holds _ hid) (h.receiver hv hid) hsrc hplace hn with
      hgo | ⟨hdone, hpull, rfl, rfl⟩
    · exact Or.inl hgo
    · exact Or.inr ⟨hdone, hpull, rfl, rfl⟩
  · rw [Function.update_of_ne (Ne.symm heq)]
    exact Or.inl hplace

/-- **the end of a source**: a run after which the only worker of a source has returned goes through a step in which its iterator
has nothing more, and nothing is yielded after that -/
theorem run_source_end (h : N.Inv s) (hv : N.Valid rank) {st : S} (hst : st ∈ N.stations) (hone : N.workers st = 1)
    (hsrc : (N.spawn st).body.isSource = true) (hplace : (s.worker (st, 0)).pc.idle = false) {acts : List (Act S T)}
    (hr : N.run s acts = some s') (hd : (s'.worker (st, 0)).pc = .done) :
    ∃ pre pick post s₁, acts = pre ++ ⟨(st, 0), pick, none⟩ :: post ∧ N.run s pre = some s₁ ∧
      (s₁.worker (st, 0)).pc = .pull [] ∧ s'.yielded st = s₁.yielded st := by
  have hid : (st, 0) ∈ N.ids := N.mem_ids.2 ⟨hst, hone ▸ Nat.one_pos⟩
  -- up to the step in which the worker returns
  induction acts generalizing s with
  | nil =>
    cases hr
    rw [hd] at hplace
    cases hplace
  | cons a acts ih =>
    obtain ⟨s₂, hs, hrest⟩ := Option.bind_eq_some_iff.1 hr
    have h₂ := h.step hv hs
    rcases step_source h hv hid hsrc hplace hs with hgo | ⟨hdone, hpull, ha, hyield⟩
    · obtain ⟨pre, pick, post, s₁, rfl, hpre, hend⟩ := ih h₂ hgo hrest
      refine ⟨a :: pre, pick, post, s₁, rfl, ?_, hend⟩
      rw [Network.run, List.foldlM_cons, hs]
      exact hpre
    · refine ⟨[], a.pick, acts, s, by rw [List.nil_append, ← ha], rfl, hpull, ?_⟩
      rw [run_source_done h₂ hv hone hdone hrest, hyield]

end Sources

/-! ## Path semantics -/

section Paths

variable {T : Type}

/-- what a node makes of one item; a source and a sink pass it on -/
def NodeKind.outputs : NodeKind T → T → List T
  | .sync f, x => [f x]
  | .expand f, x => f x
  | .async f, x => [f x]
  | _, x => [x]

namespace GraphPlan

variable (p : GraphPlan T) (yielded : ℕ → List T)

/-- the items a node pushes along each of its out-edges, following paths of up to `depth` nodes back to the sources: a
source's items, or the outputs of what comes in over the in-edges -/
def pushed : ℕ → ℕ → Multiset T
  | 0, _ => 0
  | depth + 1, u =>
    (if (p.kind u).isSource then (yielded u : Multiset T)
      else ((p.edges.filter fun e => e.down = u).map fun e => pushed depth e.up).sum).bind
        fun x => ((p.kind u).outputs x : Multiset T)

/-- what the path semantics gives a sink: no path visits more nodes than there are -/
def sinkItems (v : ℕ) : Multiset T :=
  ((p.edges.filter fun e => e.down = v).map fun e => p.pushed yielded p.nodes.length e.up).sum

end GraphPlan

end Paths

section Graphs

variable {T : Type} {p : GraphPlan T} {order : List ℕ} {cfg : Config} {s : St Station Ring T}

theorem body_outputs (u : ℕ) : (p.body cfg u).outputs = (p.kind u).outputs := by
  funext x
  cases hk : p.kind u <;> simp [GraphPlan.body, hk, Body.outputs, NodeKind.outputs]

/-- a node's in-edges, in the order the walk connects them, are the plan's edges to it -/
theorem inEdges_perm (h : Accepted p order) (u : ℕ) : (p.inEdges order u).Perm (p.edges.filter fun e => e.down = u) := by
  apply (List.perm_ext_iff_of_nodup (inEdges_nodup h u) (h.edges.filter _)).2
  intro e
  simp [mem_inEdges h]

section Settled

variable (hacc : Accepted p order) (h : (p.network order cfg).Inv s) (hl : Ledger (p.network order cfg) s)
  (hex : ∀ id ∈ (p.network order cfg).ids, (s.worker id).exited)
include hacc h hl hex

/-- a bridge has passed everything on -/
theorem sent_downRing {e : EdgePlan} (he : e ∈ p.edges) :
    (s.sent (p.downRing e) : Multiset T) = s.sent (.edge e) := by
  rw [GraphPlan.downRing]
  split_ifs with hb
  · have hst : Station.bridge e ∈ (p.network order cfg).stations := mem_stations_bridge.2 ⟨he, hb⟩
    have hset := hl.settled h (network_valid hacc) hex hst (t := some (.bridged e)) (by simp [Target, GraphPlan.network])
    have hy : s.yielded (.bridge e) = [] := hl.yielded _ hst rfl
    have hspread : spread ((p.network order cfg).spawn (.bridge e)).body (s.sent (.edge e)) = s.sent (.edge e) :=
      (Multiset.bind_singleton _ _).trans (Multiset.map_id' _)
    rw [← hspread]
    simpa only [emitted, arrived, GraphPlan.network, hy, Multiset.coe_nil, zero_add, List.map_cons, List.map_nil,
      List.sum_cons, List.sum_nil, add_zero] using hset
  · rfl

theorem arrived_node {u : ℕ} (hu : u ∈ order) :
    arrived (p.network order cfg) s (.node u) =
      if (p.kind u).isSource then (s.yielded (.node u) : Multiset T)
      else ((p.edges.filter fun e => e.down = u).map fun e => (s.sent (.edge e) : Multiset T)).sum := by
  have hst : Station.node u ∈ (p.network order cfg).stations := mem_stations_node.2 hu
  have hsum : (((p.network order cfg).spawn (.node u)).inputs.map fun r => (s.sent r : Multiset T)).sum =
      ((p.edges.filter fun e => e.down = u).map fun e => (s.sent (.edge e) : Multiset T)).sum := by
    rw [← ((inEdges_perm hacc u).map fun e => (s.sent (.edge e) : Multiset T)).sum_eq]
    simp only [GraphPlan.network, GraphPlan.nodeSpawn, List.map_map]
    congr 1
    apply List.map_congr_left
    intro e he
    exact sent_downRing hacc h hl hex ((mem_inEdges hacc).1 he).1
  rw [arrived, hsum]
  cases hk : (p.kind u).isSource with
  | true =>
    have hnil : (p.edges.filter fun e => e.down = u) = [] := by
      apply List.filter_eq_nil_iff.2
      intro e he hd
      have := hacc.source e he
      rw [of_decide_eq_true hd, hk] at this
      cases this
    simp [hnil]
  | false =>
    have hy : s.yielded (.node u) = [] := hl.yielded _ hst ((body_isSource u).trans hk)
    simp [hy]

theorem settled_node {u : ℕ} (hu : u ∈ order) {t : Option Ring} (ht : Target ((p.network order cfg).spawn (.node u)) t) :
    (emitted s (.node u) t : Multiset T) =
      (if (p.kind u).isSource then (s.yielded (.node u) : Multiset T)
        else ((p.edges.filter fun e => e.down = u).map fun e => (s.sent (.edge e) : Multiset T)).sum).bind
          fun x => ((p.kind u).outputs x : Multiset T) := by
  rw [hl.settled h (network_valid hacc) hex (mem_stations_node.2 hu) ht, arrived_node hacc h hl hex hu, spread]
  have hb : ((p.network order cfg).spawn (.node u)).body.outputs = (p.kind u).outputs := body_outputs u
  rw [hb]

/-- every edge has carried what the paths give, by induction on the depth -/
theorem sent_eq_pushed (depth : ℕ) {e : EdgePlan} (he : e ∈ p.edges) (hd : order.idxOf e.up < depth) :
    (s.sent (.edge e) : Multiset T) = p.pushed (fun u => s.yielded (.node u)) depth e.up := by
  induction depth generalizing e with
  | zero => exact absurd hd (Nat.not_lt_zero _)
  | succ depth ih =>
    have hup : e.up ∈ order := (hacc.cover _).2 (p.bound e he).1
    have hset := settled_node hacc h hl hex hup (t := some (.edge e)) (edge_mem_outputs.2 ⟨he, rfl⟩)
    rw [emitted] at hset
    rw [hset, GraphPlan.pushed]
    have hsum : ((p.edges.filter fun e' => e'.down = e.up).map fun e' => (s.sent (.edge e') : Multiset T)) =
        (p.edges.filter fun e' => e'.down = e.up).map fun e' => p.pushed (fun u => s.yielded (.node u)) depth e'.up := by
      apply List.map_congr_left
      intro e' he'
      obtain ⟨hmem, hdown⟩ := List.mem_filter.1 he'
      have hlt := rank_edge_lt hacc hmem
      rw [of_decide_eq_true hdown] at hlt
      exact ih hmem (Nat.lt_of_lt_of_le hlt (Nat.le_of_lt_succ hd))
    rw [hsum]

end Settled

/-- the depth is no limit: on an accepted plan the items pushed by a node are the outputs of what its in-edges carry -/
theorem pushed_eq (hacc : Accepted p order) (yielded : ℕ → List T) {u : ℕ} (hu : u < p.nodes.length) :
    p.pushed yielded p.nodes.length u =
      (if (p.kind u).isSource then (yielded u : Multiset T)
        else ((p.edges.filter fun e => e.down = u).map fun e => p.pushed yielded p.nodes.length e.up).sum).bind
          fun x => ((p.kind u).outputs x : Multiset T) := by
  have hstable : ∀ depth depth' u, u ∈ order → order.idxOf u < depth → order.idxOf u < depth' →
      p.pushed yielded depth u = p.pushed yielded depth' u := by
    intro depth
    induction depth with
    | zero => exact fun _ u _ hd => absurd hd (Nat.not_lt_zero _)
    | succ depth ih =>
      intro depth' u hu hd hd'
      obtain ⟨depth', rfl⟩ := Nat.exists_eq_add_one_of_ne_zero (Nat.ne_zero_of_lt hd')
      have hsum : ((p.edges.filter fun e => e.down = u).map fun e => p.pushed yielded depth e.up) =
          (p.edges.filter fun e => e.down = u).map fun e => p.pushed yielded depth' e.up := by
        apply List.map_congr_left
        intro e he
        obtain ⟨hmem, hdown⟩ := List.mem_filter.1 he
        have hlt := rank_edge_lt hacc hmem
        rw [of_decide_eq_true hdown] at hlt
        exact ih depth' e.up ((hacc.cover _).2 (p.bound e hmem).1) (by omega) (by omega)
      rw [GraphPlan.pushed, GraphPlan.pushed, hsum]
  have hmem := (hacc.cover u).2 hu
  have hlt : order.idxOf u < p.nodes.length := (List.idxOf_lt_length_of_mem hmem).trans_le hacc.length_le
  rw [hstable _ (p.nodes.length + 1) u hmem hlt (Nat.lt_succ_of_lt hlt), GraphPlan.pushed]

/-- once all workers have exited, a sink has consumed the items of the path semantics -/
theorem received_eq (hacc : Accepted p order) (h : (p.network order cfg).Inv s) (hl : Ledger (p.network order cfg) s)
    (hex : ∀ id ∈ (p.network order cfg).ids, (s.worker id).exited) {v : ℕ} (hv : v < p.nodes.length)
    (hsink : (p.kind v).isSink = true) :
    (s.received (.node v) : Multiset T) = p.sinkItems (fun u => s.yielded (.node u)) v := by
  have hkind : p.kind v = .sink := by cases hk : p.kind v <;> simp_all [NodeKind.isSink]
  have hset := settled_node hacc h hl hex ((hacc.cover v).2 hv) (t := none) ((body_isSink v).trans hsink)
  simp only [emitted, hkind, NodeKind.isSource, NodeKind.outputs, Bool.false_eq_true, if_false] at hset
  rw [hset, GraphPlan.sinkItems]
  refine ((Multiset.bind_singleton _ _).trans (Multiset.map_id' _)).trans ?_
  congr 1
  apply List.map_congr_left
  intro e he
  have hmem := (List.mem_filter.1 he).1
  apply sent_eq_pushed hacc h hl hex _ hmem
  have hup : e.up ∈ order := (hacc.cover _).2 (p.bound e hmem).1
  exact (List.idxOf_lt_length_of_mem hup).trans_le hacc.length_le

/-- a source has one worker, which starts at its iterator -/
theorem source_worker {u : ℕ} (hu : u ∈ order) (hsrc : (p.kind u).isSource = true) :
    (p.network order cfg).workers (.node u) = 1 ∧ ((p.network order cfg).init.worker (.node u, 0)).pc.idle = false := by
  have hone : (p.network order cfg).workers (.node u) = 1 := by
    simp only [GraphPlan.network, GraphPlan.nodeWorkers]
    cases hk : p.kind u <;> simp_all [NodeKind.isSource]
  have hid : (Station.node u, 0) ∈ (p.network order cfg).ids :=
    (p.network order cfg).mem_ids.2 ⟨mem_stations_node.2 hu, hone ▸ Nat.one_pos⟩
  have hbody : (p.body cfg u).isSource = true := (body_isSource u).trans hsrc
  refine ⟨hone, ?_⟩
  simp only [Network.init, hid, if_true]
  change (Worker.head (p.body cfg u)).idle = false
  cases hb : p.body cfg u <;> simp_all [Body.isSource, Worker.head, Pc.idle]

/-- **nothing lost, nothing duplicated**: for every accepted plan, every worker count, buffer size and knob setting and every
interleaving, once all workers have exited
* each sink has consumed exactly the items of the path semantics, over what the sources' iterators yielded;
* each source has asked its iterator until it had nothing more, with no item in hand, and never again;
* the items a node pushes are the outputs of its iterator's items, or of what its in-edges carry, and a move producer, which clones
  nothing, has one edge to push them on. -/
theorem graph_delivery {T : Type} (p : GraphPlan T) (cfg : Config) {order : List ℕ} (hok : p.validateAndOrder = .ok order)
    {acts : List (Act Station T)} {s : St Station Ring T}
    (hrun : (p.network order cfg).run (p.network order cfg).init acts = some s)
    (hex : ∀ id ∈ (p.network order cfg).ids, (s.worker id).exited) :
    (∀ v < p.nodes.length, (p.kind v).isSink = true →
      (s.received (.node v) : Multiset T) = p.sinkItems (fun u => s.yielded (.node u)) v) ∧
    (∀ u < p.nodes.length, (p.kind u).isSource = true →
      ∃ pre pick post s₁, acts = pre ++ ⟨(.node u, 0), pick, none⟩ :: post ∧
        (p.network order cfg).run (p.network order cfg).init pre = some s₁ ∧ (s₁.worker (.node u, 0)).pc = .pull [] ∧
        s.yielded (.node u) = s₁.yielded (.node u)) ∧
    ∀ u < p.nodes.length,
      (p.pushed (fun u => s.yielded (.node u)) p.nodes.length u =
        (if (p.kind u).isSource then (s.yielded (.node u) : Multiset T)
          else ((p.edges.filter fun e => e.down = u).map fun e =>
            p.pushed (fun u => s.yielded (.node u)) p.nodes.length e.up).sum).bind fun x => ((p.kind u).outputs x : Multiset T)) ∧
      (p.fanout u = .move → (p.kind u).isSink = false → (p.nodeSpawn order cfg u).outputs.length = 1) := by
  have hacc := GraphPlan.validateAndOrder_ok hok
  have hvalid : (p.network order cfg).Valid (GraphPlan.rank order) := network_valid hacc
  have hstart := Network.init_inv hvalid
  have h : (p.network order cfg).Inv s := hstart.run hvalid hrun
  have hl : Ledger (p.network order cfg) s := init_ledger.run hstart hvalid hrun
  refine ⟨fun v hv hsink => received_eq hacc h hl hex hv hsink, fun u hu hsrc => ?_, fun u hu => ?_⟩
  · have hmem := (hacc.cover u).2 hu
    obtain ⟨hone, hplace⟩ := source_worker hmem hsrc
    have hid : (Station.node u, 0) ∈ (p.network order cfg).ids :=
      (p.network order cfg).mem_ids.2 ⟨mem_stations_node.2 hmem, hone ▸ Nat.one_pos⟩
    exact run_source_end hstart hvalid (mem_stations_node.2 hmem) hone ((body_isSource u).trans hsrc) hplace hrun (hex _ hid).1
  · exact ⟨pushed_eq hacc _ hu, unicast_single hacc hu⟩

/-- the workers of the diamond in turns, until all have exited -/
def diamondActs : List (Act Station ℕ) :=
  ⟨(.node 0, 0), 1, some 5⟩ ::
    [((Station.node 0, 0), 9), ((.node 1, 0), 11), ((.node 1, 1), 6), ((.node 2, 0), 4), ((.node 2, 1), 6), ((.node 3, 0), 4),
      ((.node 2, 0), 9), ((.node 3, 0), 15)].flatMap fun turn => List.replicate turn.2 ⟨turn.1, 1, none⟩

theorem graph_delivery_diamond :
    ∃ s, (diamond.network [0, 1, 2, 3] tight).run (diamond.network [0, 1, 2, 3] tight).init diamondActs = some s ∧
      (∀ id ∈ (diamond.network [0, 1, 2, 3] tight).ids, (s.worker id).exited) ∧ s.received (.node 3) = [6, 5, 5] ∧
      (s.received (.node 3) : Multiset ℕ) = diamond.sinkItems (fun u => s.yielded (.node u)) 3 ∧ s.yielded (.node 0) = [5] := by
  have heval : ((diamond.network [0, 1, 2, 3] tight).run (diamond.network [0, 1, 2, 3] tight).init diamondActs).any
      (fun s => decide ((∀ id ∈ (diamond.network [0, 1, 2, 3] tight).ids, (s.worker id).exited) ∧
        s.received (.node 3) = [6, 5, 5] ∧ s.yielded (.node 0) = [5])) = true := by decide +kernel
  obtain ⟨s, hrun, hs⟩ := (Option.any_eq_true _ _).1 heval
  obtain ⟨hex, hrec, hyield⟩ := of_decide_eq_true hs
  have hok : diamond.validateAndOrder = .ok [0, 1, 2, 3] := by rfl
  have hlt : 3 < diamond.nodes.length := by decide
  exact ⟨s, hrun, hex, hrec, (graph_delivery diamond tight hok hrun hex).1 3 hlt rfl, hyield⟩

end Graphs

end YouPipe.Graph
