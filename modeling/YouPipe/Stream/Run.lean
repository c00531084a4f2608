/-
A streaming run from the feeder to the collector's return (`exec_stream`, `route_feeder`, `drain_terminal` in
`builder/typed/stream.rs`), over any topology, receiver and sink.

The run is a state machine with four kinds of steps: the token fires, the workers are spawned, somebody in the topology makes a
step, the collector makes one. When the items fit into the feeder's ring the calling thread pushes them itself before it spawns
anybody; the collector runs after the spawn. Once the collector has returned nobody receives from the last rings. The token may
fire at any moment, also before the first step and after the last.

Results for every reachable state (`Reachable`):
- what the collector took and what is still inside are among the outputs of the input, each at most once, and are all of them
  while the token has not fired (`Inv.account`, `Inv.exact`);
- the sink was fed exactly what was taken, in that order, and closed at the return (`Inv.sink`);
- until the collector returns some step other than the token's is enabled (`progress`), no schedule makes more than `work` such
  steps, and every one that goes on while it can brings everybody out (`schedule_bound`, `finishes`).
-/
import Mathlib.Tactic
import YouPipe.Core.Machine
import YouPipe.Stream.NetProgress
import YouPipe.Stream.Receiver

namespace YouPipe.Stream

open YouPipe.Reorder

variable {I O σ : Type}

/-! ## Model -/

/-- a topology with what reads its rings and where that puts the messages -/
structure Setup (I O σ : Type) where
  net : Net I O
  recv : Receiver net.shards (Msg O)
  sink : Drain.Sink σ (Msg O)
  empty : σ

/-- the output rings as the collector sees them -/
def Net.view (net : Net I O) (s : net.St) : View (Msg O) := ⟨fun r => if r < net.shards then net.rings s r else [], net.isOpen s⟩

namespace Setup

structure St (c : Setup I O σ) where
  net : c.net.St
  cancelled : Bool
  started : Bool
  pos : c.recv.Pos
  sink : Except Fault σ
  taken : List (Msg O)

inductive Step where
  | cancel
  | spawn
  | net (a : Act)
  | recv (m : ℕ)
deriving DecidableEq, Repr

variable (c : Setup I O σ)

def init (items : List I) : c.St := ⟨c.net.init items, false, false, c.recv.start, .ok c.empty, []⟩

/-- the calling thread feeds: `items.len() <= buffer` -/
def inline (items : List I) : Bool := items.length ≤ c.net.feedCfg.cap

/-- the collector's step: it moves on, or takes messages and inserts them; at its return it closes the sink -/
def collect (s : c.St) (p : c.recv.Pos) : Option (ℕ × ℕ) → c.St
  | none => { s with pos := p, sink := if c.recv.returned p then s.sink.bind c.sink.eof else s.sink }
  | some (r, m) =>
    let items := (c.net.rings s.net r).take m
    { s with
      net := c.net.take s.net r m
      pos := p
      sink := s.sink.bind fun x => items.foldlM c.sink.insert x
      taken := s.taken ++ items }

def step (items : List I) (s : c.St) : Step → Option c.St
  | .cancel => some { s with cancelled := true }
  | .spawn => if s.started = false ∧ (c.inline items → c.net.fed s.net) then some { s with started := true } else none
  | .net a => (c.net.step ⟨s.cancelled, !c.recv.returned s.pos, s.started⟩ s.net a).map fun n => { s with net := n }
  | .recv m =>
    if s.started then (c.recv.step s.pos (c.net.view s.net) m).map fun x => c.collect s x.1 x.2 else none

def run (items : List I) (s : c.St) (acts : List Step) : Option c.St := acts.foldlM (c.step items) s

def Reachable (items : List I) (s : c.St) : Prop := ∃ acts, c.run items (c.init items) acts = some s

/-- the collector has reached end of stream -/
def St.returned {c : Setup I O σ} (s : c.St) : Bool := c.recv.returned s.pos

end Setup

/-! ## The view -/

theorem view_take (net : Net I O) (s : net.St) {r : ℕ} (hr : r < net.shards) (m : ℕ) :
    net.view (net.take s r m) = (net.view s).take r m := by
  unfold Net.view View.take
  rw [isOpen_take]
  congr 1
  funext r'
  by_cases hr' : r' < net.shards
  · rw [if_pos hr', rings_take net s hr m hr']
    by_cases h : r' = r
    · subst h
      simp [hr']
    · simp [h, hr']
  · have h : r' ≠ r := by
      rintro rfl
      exact hr' hr
    simp [h, hr']

theorem view_later {net : Net I O} {env : Env} {s s' : net.St} {a : Act} (h : net.step env s a = some s') :
    (net.view s).Later (net.view s') := by
  intro r hr
  obtain ⟨ho, hq⟩ := step_closed h hr
  refine ⟨ho, ?_⟩
  simp only [Net.view, hq]

namespace Setup

variable {c : Setup I O σ} {items : List I} {s s' : c.St}

/-! ## Invariant -/

structure Inv (items : List I) (s : c.St) : Prop where
  account : (s.taken : Multiset (Msg O)) + c.net.inside s.net ≤ c.net.total items
  exact : s.cancelled = false →
    c.net.Settled s.net ∧ (s.taken : Multiset (Msg O)) + c.net.inside s.net = c.net.total items
  recv : c.recv.Inv s.pos (c.net.view s.net)
  started : s.returned = true → s.started = true
  feeding : s.returned = false → s.sink = s.taken.foldlM c.sink.insert c.empty
  closed : s.returned = true → s.sink = (s.taken.foldlM c.sink.insert c.empty).bind c.sink.eof
  source : (c.net.source s.net).all.card ≤ items.length

theorem init_inv (c : Setup I O σ) (items : List I) : Inv items (c.init items) where
  account := by
    show ((([] : List (Msg O)) : Multiset (Msg O)) + c.net.inside (c.net.init items)) ≤ _
    rw [init_inside, Multiset.coe_nil, zero_add]
  exact := by
    intro _
    refine ⟨init_settled c.net items, ?_⟩
    show ((([] : List (Msg O)) : Multiset (Msg O)) + c.net.inside (c.net.init items)) = _
    rw [init_inside, Multiset.coe_nil, zero_add]
  recv := c.recv.start_inv _
  started := by
    intro h
    exact absurd (c.recv.start_open.symm.trans h) (by simp)
  feeding := fun _ => rfl
  closed := by
    intro h
    exact absurd (c.recv.start_open.symm.trans h) (by simp)
  source := le_of_eq (init_source c.net items)

/-- at the collector's return every output ring is closed and empty -/
theorem Inv.ended (h : Inv items s) (hr : s.returned = true) : c.net.ended s.net = true := by
  have hfin := c.recv.finished h.recv hr
  refine ended_iff.2 ⟨closed_iff.2 fun r hr => (hfin r hr).2, fun r hr => ?_⟩
  have hq := (hfin r hr).1
  simpa only [Net.view, if_pos hr] using hq

/-- a step of the topology, taken apart -/
theorem step_net {a : Act} (hs : c.step items s (.net a) = some s') :
    ∃ n, c.net.step ⟨s.cancelled, !s.returned, s.started⟩ s.net a = some n ∧ s' = { s with net := n } := by
  obtain ⟨n, hn, rfl⟩ := Option.map_eq_some_iff.1 hs
  exact ⟨n, hn, rfl⟩

theorem step_recv {m : ℕ} (hs : c.step items s (.recv m) = some s') :
    s.started = true ∧ ∃ p t, c.recv.step s.pos (c.net.view s.net) m = some (p, t) ∧ s' = c.collect s p t := by
  simp only [step] at hs
  split_ifs at hs with hst
  obtain ⟨⟨p, t⟩, hp, rfl⟩ := Option.map_eq_some_iff.1 hs
  exact ⟨hst, p, t, hp, rfl⟩

theorem Inv.net (h : Inv items s) {a : Act} {n : c.net.St}
    (hn : c.net.step ⟨s.cancelled, !s.returned, s.started⟩ s.net a = some n) : Inv items { s with net := n } where
  account := (add_le_add_right (step_inside_le hn) _).trans h.account
  exact := by
    intro hc
    obtain ⟨hset, heq⟩ := h.exact hc
    cases hr : s.returned with
    | true =>
      -- the collector is gone: the topology has come to rest
      rw [closed_rests hset (ended_iff.1 (h.ended hr)).1] at hn
      cases hn
    | false =>
      rw [show s.cancelled = false from hc, hr] at hn
      obtain ⟨hset', hin⟩ := step_keeps hset hn
      exact ⟨hset', by rw [hin]; exact heq⟩
  recv := c.recv.later_inv h.recv (view_later hn)
  started := h.started
  feeding := h.feeding
  closed := h.closed
  source := (Multiset.card_le_card (step_source_le hn)).trans h.source

/-- a collector that has returned makes no step -/
theorem open_of_step {m : ℕ} {x : c.recv.Pos × Option (ℕ × ℕ)} (hp : c.recv.step s.pos (c.net.view s.net) m = some x) :
    s.returned = false := by
  cases hr : s.returned with
  | false => rfl
  | true =>
    rw [c.recv.rests _ _ hr] at hp
    cases hp

theorem Inv.recv_silent (h : Inv items s) (hst : s.started = true) {m : ℕ} {p : c.recv.Pos}
    (hp : c.recv.step s.pos (c.net.view s.net) m = some (p, none)) : Inv items (c.collect s p none) := by
  have hopen := open_of_step hp
  refine ⟨h.account, h.exact, c.recv.silent_inv h.recv hp, fun _ => hst, fun hr => ?_, fun hr => ?_, h.source⟩
  · have hr' : c.recv.returned p = false := hr
    show (if c.recv.returned p then _ else _) = _
    rw [if_neg (by simp [hr'])]
    exact h.feeding hopen
  · have hr' : c.recv.returned p = true := hr
    show (if c.recv.returned p then _ else _) = _
    rw [if_pos hr', h.feeding hopen]
    rfl

theorem Inv.recv_take (h : Inv items s) (hst : s.started = true) {m r k : ℕ} {p : c.recv.Pos}
    (hp : c.recv.step s.pos (c.net.view s.net) m = some (p, some (r, k))) : Inv items (c.collect s p (some (r, k))) := by
  obtain ⟨hr, hk, hle, hret⟩ := c.recv.legal h.recv hp
  have hopen := open_of_step hp
  have htot : ((s.taken ++ (c.net.rings s.net r).take k : List (Msg O)) : Multiset (Msg O)) +
      c.net.inside (c.net.take s.net r k) = (s.taken : Multiset (Msg O)) + c.net.inside s.net := by
    rw [← take_inside c.net s.net hr k, ← Multiset.coe_add]
    abel
  refine ⟨?_, fun hc => ?_, ?_, fun _ => hst, fun _ => ?_, fun hr' => ?_, ?_⟩
  · exact (le_of_eq htot).trans h.account
  · obtain ⟨hset, heq⟩ := h.exact hc
    exact ⟨take_settled hset r k, htot.trans heq⟩
  · show c.recv.Inv p (c.net.view (c.net.take s.net r k))
    rw [view_take c.net s.net hr k]
    exact c.recv.take_inv h.recv hp
  · show s.sink.bind _ = (s.taken ++ (c.net.rings s.net r).take k).foldlM c.sink.insert c.empty
    rw [h.feeding hopen, List.foldlM_append]
    rfl
  · exact absurd (hret.symm.trans hr') (by simp)
  · exact (Multiset.card_le_card (take_source_le c.net s.net r k)).trans h.source

theorem step_inv {a : Step} (h : Inv items s) (hs : c.step items s a = some s') : Inv items s' := by
  cases a with
  | cancel =>
    cases hs
    exact ⟨h.account, fun hc => absurd hc (by simp), h.recv, h.started, h.feeding, h.closed, h.source⟩
  | spawn =>
    simp only [step] at hs
    split_ifs at hs
    cases hs
    exact ⟨h.account, h.exact, h.recv, fun _ => rfl, h.feeding, h.closed, h.source⟩
  | net a =>
    obtain ⟨n, hn, rfl⟩ := step_net hs
    exact h.net hn
  | recv m =>
    obtain ⟨hst, p, t, hp, rfl⟩ := step_recv hs
    match t, hp with
    | none, hp => exact h.recv_silent hst hp
    | some (r, k), hp => exact h.recv_take hst hp

theorem run_inv {acts : List Step} (h : Inv items s) (hr : c.run items s acts = some s') : Inv items s' :=
  Machine.run_keeps (fun _ h hs => step_inv h hs) h hr

theorem Reachable.inv (h : c.Reachable items s) : Inv items s := by
  obtain ⟨acts, hr⟩ := h
  exact run_inv (init_inv c items) hr

theorem Reachable.run (h : c.Reachable items s) (acts : List Step) (hr : c.run items s acts = some s') : c.Reachable items s' := by
  obtain ⟨acts₀, h₀⟩ := h
  refine ⟨acts₀ ++ acts, ?_⟩
  rw [Setup.run, List.foldlM_append]
  exact Option.bind_eq_some_iff.2 ⟨s, h₀, hr⟩

/-- **nothing is lost**: a collector that returns before the token fires has taken every output -/
theorem Inv.complete (h : Inv items s) (hr : s.returned = true) (hc : s.cancelled = false) :
    (s.taken : Multiset (Msg O)) = c.net.total items := by
  obtain ⟨hset, heq⟩ := h.exact hc
  rwa [inside_of_ended hset (h.ended hr), add_zero] at heq

/-- **nothing is made up or taken twice** -/
theorem Inv.taken_le (h : Inv items s) : (s.taken : Multiset (Msg O)) ≤ c.net.total items :=
  (Multiset.le_add_right _ _).trans h.account

/-! ## Progress -/

/-- **no state before the collector's return is stuck** -/
theorem Inv.progress (h : Inv items s) (hr : s.returned = false) : ∃ a ≠ Step.cancel, ∃ s', c.step items s a = some s' := by
  have hnet : ∀ {env : Env}, c.net.Enabled env s.net → env = ⟨s.cancelled, !s.returned, s.started⟩ →
      ∃ a ≠ Step.cancel, ∃ s', c.step items s a = some s' := by
    rintro env ⟨a, n, hn⟩ rfl
    refine ⟨.net a, by simp, { s with net := n }, ?_⟩
    simp only [step]
    exact Option.map_eq_some_iff.2 ⟨n, hn, rfl⟩
  cases hst : s.started with
  | false =>
    by_cases hin : c.inline items = true ∧ c.net.fed s.net = false
    · -- the calling thread still feeds, into a ring that holds everything
      have hfit := h.source.trans (of_decide_eq_true hin.1)
      exact hnet (step_of_source hin.2 hfit) rfl
    · refine ⟨.spawn, by simp, { s with started := true }, if_pos ⟨hst, fun hi => ?_⟩⟩
      by_contra hf
      exact hin ⟨hi, by simpa using hf⟩
  | true =>
    cases hp : c.recv.step s.pos (c.net.view s.net) 0 with
    | some x =>
      refine ⟨.recv 0, by simp, c.collect s x.1 x.2, ?_⟩
      simp only [step, hst, if_true]
      exact Option.map_eq_some_iff.2 ⟨x, hp, rfl⟩
    | none =>
      obtain ⟨r, hrn, hq, ho⟩ := c.recv.waits h.recv hp hr
      simp only [Net.view, if_pos hrn] at hq
      exact hnet (step_of_open hq ho) (by rw [hr, hst]; rfl)

/-- everybody has returned -/
def St.quiet {c : Setup I O σ} (s : c.St) : Bool := s.returned && c.net.quiet s.net

/-- after the collector's return the others are not stuck either -/
theorem Inv.progress_after (h : Inv items s) (hq : s.quiet = false) : ∃ a ≠ Step.cancel, ∃ s', c.step items s a = some s' := by
  cases hr : s.returned with
  | false => exact h.progress hr
  | true =>
    have hnq : c.net.quiet s.net = false := by simpa [St.quiet, hr] using hq
    obtain ⟨a, n, hn⟩ := @step_of_unread _ _ c.net s.cancelled s.net hnq
    refine ⟨.net a, by simp, { s with net := n }, ?_⟩
    simp only [step]
    refine Option.map_eq_some_iff.2 ⟨n, ?_, rfl⟩
    rw [h.started hr, show c.recv.returned s.pos = true from hr]
    exact hn

/-! ## Termination -/

/-- bounds the steps that are left: a message in the last rings is worth all the steps the collector makes around it -/
def work (s : c.St) : ℕ := c.net.measure (fun _ => c.recv.bound + 1) s.net + c.recv.rank s.pos + (!s.started).toNat

theorem Inv.step_work (h : Inv items s) {a : Step} (ha : a ≠ .cancel) (hs : c.step items s a = some s') :
    work s' < work s := by
  cases a with
  | cancel => exact absurd rfl ha
  | spawn =>
    simp only [step] at hs
    split_ifs at hs with hst
    cases hs
    simp only [work, hst.1, Bool.not_false, Bool.not_true, Bool.toNat_true, Bool.toNat_false]
    omega
  | net a =>
    obtain ⟨n, hn, rfl⟩ := step_net hs
    have := step_measure (fun _ => c.recv.bound + 1) hn
    simp only [work]
    omega
  | recv m =>
    obtain ⟨hst, p, t, hp, rfl⟩ := step_recv hs
    match t, hp with
    | none, hp =>
      have := c.recv.rank_lt h.recv hp
      simp only [work, collect]
      omega
    | some (r, k), hp =>
      obtain ⟨hr, hk, hle, -⟩ := c.recv.legal h.recv hp
      have hbound := c.recv.rank_le (c.recv.take_inv h.recv hp)
      have htake := take_measure c.net (fun _ => c.recv.bound + 1) s.net hr k
      have hcost : c.recv.bound + 1 ≤ cost (fun _ => c.recv.bound + 1) 0 ((c.net.rings s.net r).take k) := by
        obtain ⟨k, rfl⟩ := Nat.exists_eq_add_one.2 hk
        simp only [Net.view, if_pos hr] at hle
        cases hq : c.net.rings s.net r with
        | nil => simp [hq] at hle
        | cons x q =>
          rw [List.take_succ_cons, cost_cons]
          omega
      simp only [work, collect]
      omega

/-- a schedule that is not interrupted by the token is no longer than the work that is left -/
theorem Inv.schedule_bound (h : Inv items s) {acts : List Step} (ha : Step.cancel ∉ acts) (hr : c.run items s acts = some s') :
    acts.length + work s' ≤ work s := by
  refine (Machine.run_descends (fun hmem h hs => ?_) h hr).2
  exact ⟨step_inv h hs, h.step_work (fun he => ha (he ▸ hmem)) hs⟩

/-- **everybody gets out**: from every state the run can go on to one where the collector and everybody else have returned -/
theorem Inv.finishes (h : Inv items s) :
    ∃ acts s', Step.cancel ∉ acts ∧ c.run items s acts = some s' ∧ s'.quiet = true := by
  induction hw : work s using Nat.strong_induction_on generalizing s with
  | _ n ih =>
    cases hq : s.quiet with
    | true => exact ⟨[], s, by simp, rfl, hq⟩
    | false =>
      obtain ⟨a, ha, s₁, hs⟩ := h.progress_after hq
      obtain ⟨acts, s', hc, hr, hquiet⟩ := ih _ (hw ▸ h.step_work ha hs) (step_inv h hs) rfl
      refine ⟨a :: acts, s', ?_, Option.bind_eq_some_iff.2 ⟨s₁, hs, hr⟩, hquiet⟩
      simp only [List.mem_cons, not_or]
      exact ⟨ha.symm, hc⟩

end Setup

end YouPipe.Stream
